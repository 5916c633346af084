import Mathlib.Data.String.Basic
import ClusterCatalog.Proofs.Tree.Separation
import ClusterCatalog.Tree.Repository

/-!
# What calls do to look-ups

A repository is known by its look-ups and its listings. Three statements say how the calls change
them: `Tree.query_persist`, `Tree.query_delete` and `Tree.mem_children_iff`, with
`Tree.children_ascending` for the order of a listing. Everything above the repository is argued from
these; the shape of the map behind them is not looked at again.

A scan that starts at a text and stops at the first key without that text in front visits exactly the
keys that have it (`SortedMap.scan_eq_filter`). So a listing is one of all nodes with a name below the
path (`Tree.children_eq_filterMap`), and the ordered table answers every call as the tree with the same
nodes does (`Repository.tree_persist`, `Repository.tree_delete`, `Repository.children_tree`). So the
statements hold of both repositories.
-/

namespace ClusterCatalog

/-! ### Keys with a common front -/

/-- A text is not below its own front. -/
theorem not_lt_of_front {f k : List Char} (h : f <+: k) : ¬ k < f := by
  induction f generalizing k with
  | nil => exact List.not_lt_nil k
  | cons c f ih =>
    obtain ⟨k', rfl⟩ : ∃ k', k = c :: k' := by
      obtain ⟨r, rfl⟩ := h
      exact ⟨f ++ r, rfl⟩
    rw [List.prefix_cons_inj] at h
    rw [List.cons_lt_cons_iff]
    rintro (hlt | ⟨-, hlt⟩)
    · exact lt_irrefl c hlt
    · exact ih h hlt

/-- **Keys with a common front stand together**: what lies between the front and such a key has the
front, too. -/
theorem front_of_lt_of_front {f k b : List Char} (hfk : ¬ k < f) (hkb : k < b) (h : f <+: b) :
    f <+: k := by
  -- by induction on the front: its first character is also that of what lies between
  induction f generalizing k b with
  | nil => exact List.nil_prefix
  | cons c f ih =>
    obtain ⟨b', rfl⟩ : ∃ b', b = c :: b' := by
      obtain ⟨r, rfl⟩ := h
      exact ⟨f ++ r, rfl⟩
    rw [List.prefix_cons_inj] at h
    cases k with
    | nil => exact absurd (List.nil_lt_cons c f) hfk
    | cons d k =>
      rw [List.cons_lt_cons_iff] at hfk hkb
      push Not at hfk
      -- the first character is neither smaller than that of the front nor greater
      rcases hkb with hlt | ⟨rfl, hlt⟩
      · exact absurd hlt (not_lt.2 hfk.1)
      · rw [List.prefix_cons_inj]
        exact ih (not_lt.2 (hfk.2 rfl)) hlt h

/-- A common front does not decide about the order. -/
theorem append_lt_append_iff {f : String} {a b : String} : f ++ a < f ++ b ↔ a < b := by
  rw [String.lt_iff_toList_lt, String.lt_iff_toList_lt, String.toList_append, String.toList_append]
  induction f.toList with
  | nil => exact Iff.rfl
  | cons c cs ih => simpa [List.cons_lt_cons_iff] using ih

/-- Lists in strict order with the same members are equal. -/
theorem eq_of_ascending {l₁ l₂ : List String} (h₁ : l₁.Pairwise (· < ·))
    (h₂ : l₂.Pairwise (· < ·)) (h : ∀ x, x ∈ l₁ ↔ x ∈ l₂) : l₁ = l₂ := by
  have hperm : l₁.Perm l₂ :=
    (List.perm_ext_iff_of_nodup (h₁.imp fun hlt => ne_of_lt hlt)
      (h₂.imp fun hlt => ne_of_lt hlt)).2 h
  exact hperm.eq_of_pairwise (fun a b _ _ hab hba => absurd (hab.trans hba) (lt_irrefl a)) h₁ h₂

/-- **A scan visits exactly the keys with a front**, by induction on the entries in their order. -/
theorem SortedMap.scan_eq_filter {front : String} {l : List (String × String)}
    (h : l.Pairwise (fun a b => a.1 < b.1)) :
    (l.dropWhile fun row => row.1 < front).takeWhile (fun row => Path.startsWith row.1 front)
      = l.filter fun row => Path.startsWith row.1 front := by
  induction l with
  | nil => rfl
  | cons row l ih =>
    rw [List.pairwise_cons] at h
    by_cases hlt : row.1 < front
    -- the scan has not begun, and the row does not have the front either
    · have hfront : Path.startsWith row.1 front = false := by
        rw [Bool.eq_false_iff, ne_eq, Path.startsWith_iff]
        exact fun hp => not_lt_of_front hp (String.lt_iff_toList_lt.1 hlt)
      rw [List.dropWhile_cons_of_pos (by simpa using hlt), ih h.2,
        List.filter_cons_of_neg (by simp [hfront])]
    · rw [List.dropWhile_cons_of_neg (by simpa using hlt)]
      by_cases hfront : Path.startsWith row.1 front
      -- the row is visited; the scan has begun, so nothing is dropped from the rest
      · have hrest : (l.dropWhile fun row => row.1 < front) = l := by
          cases l with
          | nil => rfl
          | cons next l =>
            have hnext : ¬ next.1 < front := fun hn =>
              hlt (String.lt_trans (h.1 next List.mem_cons_self) hn)
            exact List.dropWhile_cons_of_neg (by simpa using hnext)
        rw [List.takeWhile_cons_of_pos (by exact hfront), List.filter_cons_of_pos (by exact hfront),
          ← ih h.2, hrest]
      -- the scan stops
      · rw [List.takeWhile_cons_of_neg (by exact hfront), List.filter_cons_of_neg (by exact hfront)]
        symm
        rw [List.filter_eq_nil_iff]
        -- a later key with the front would force it on this one, which lies in between
        intro next hnext hn
        refine hfront (Path.startsWith_iff.2 (front_of_lt_of_front ?_ ?_
          (Path.startsWith_iff.1 hn)))
        · exact fun hk => hlt (String.lt_iff_toList_lt.2 hk)
        · exact String.lt_iff_toList_lt.1 (h.1 next hnext)

/-! ### The tree -/

namespace Tree

variable (t : Tree) (p : Path) (v : String)

/-- A node that is touched is there, with the text that it had or an empty one. -/
theorem query_touch (a q : Path) :
    (t.touch a).query q = if q = a then some ((t.query q).getD "") else t.query q := by
  unfold touch query
  -- the node may be there already, and then nothing is done
  split
  · rename_i h
    obtain ⟨w, hw⟩ := Option.isSome_iff_exists.1 h
    by_cases hq : q = a
    · subst hq; simp [hw]
    · rw [if_neg hq]
  · rename_i h
    have hnone : t.nodes.get? a = none := by simpa [SortedMap.contains] using h
    by_cases hq : q = a
    · subst hq; simp [hnone]
    · rw [if_neg hq, SortedMap.get?_insert_of_ne _ _ hq]

/-- The same for several nodes. -/
theorem query_foldl_touch (l : List Path) (q : Path) :
    (l.foldl touch t).query q = if q ∈ l then some ((t.query q).getD "") else t.query q := by
  induction l generalizing t with
  | nil => simp
  | cons a l ih =>
    rw [List.foldl_cons, ih, query_touch]
    by_cases hq : q = a
    · subst hq; by_cases hl : q ∈ l <;> simp [hl]
    · by_cases hl : q ∈ l <;> simp [hl, hq]

/-- **Writing** sets the text of one node, creates the missing nodes above it without a text, and
changes nothing else. -/
theorem query_persist (q : Path) :
    (t.persist p v).query q
      = if q = p then some v
        else if q ∈ Path.ancestors p then some ((t.query q).getD "") else t.query q := by
  unfold persist
  rw [query, SortedMap.get?_insert]
  exact if_congr Iff.rfl rfl (query_foldl_touch t _ q)

/-- What was written last is read. -/
@[simp] theorem query_persist_self : (t.persist p v).query p = some v := by
  rw [query_persist, if_pos rfl]

/-- Writing reaches no node but those that cover the path. -/
theorem query_persist_of_not_covers {q : Path} (h : ¬ q.Covers p) :
    (t.persist p v).query q = t.query q := by
  rw [query_persist, if_neg fun heq => h (.inl heq),
    if_neg fun hmem => h (Path.mem_ancestors_iff.1 hmem).2.covers]

/-- Writing does not change the text of another node that is there. -/
theorem query_persist_of_isSome {q : Path} (hne : q ≠ p) (h : (t.query q).isSome) :
    (t.persist p v).query q = t.query q := by
  obtain ⟨w, hw⟩ := Option.isSome_iff_exists.1 h
  rw [query_persist, if_neg hne, hw]
  simp

/-- A node that a write creates above the one it writes has no text. -/
theorem query_persist_eq {q : Path} (hne : q ≠ p) :
    (t.persist p v).query q = t.query q
      ∨ q.IsAbove p ∧ t.query q = none ∧ (t.persist p v).query q = some "" := by
  rw [query_persist, if_neg hne]
  by_cases hmem : q ∈ Path.ancestors p
  · rw [if_pos hmem]
    cases hq : t.query q with
    | none => exact .inr ⟨(Path.mem_ancestors_iff.1 hmem).2, rfl, rfl⟩
    | some w => exact .inl rfl
  · rw [if_neg hmem]
    exact .inl rfl

/-- Writing removes nothing. -/
theorem isSome_query_persist {q : Path} (h : (t.query q).isSome) :
    ((t.persist p v).query q).isSome := by
  by_cases hq : q = p
  · subst hq; simp
  · rw [query_persist_of_isSome t p v hq h]; exact h

/-- **Removing** a node removes what its path stands in front of. -/
theorem query_delete (q : Path) :
    (t.delete p).query q
      = if q = p ∨ Path.startsWith q (Path.below p) then none else t.query q := by
  unfold delete query
  rw [SortedMap.get?_filter]
  by_cases hq : q = p
  · subst hq; cases t.nodes.get? q <;> simp [Option.filter]
  · by_cases hb : Path.startsWith q (Path.below p) <;>
      cases t.nodes.get? q <;> simp [Option.filter, hq, hb]

/-- Removing reaches only paths that start with the removed one. -/
theorem query_delete_of_not_front {q : Path} (h : ¬ p.toList <+: q.toList) :
    (t.delete p).query q = t.query q := by
  rw [query_delete, if_neg]
  rintro (rfl | hb)
  · exact h List.prefix_rfl
  · exact h ((Path.prefix_below p).trans (Path.startsWith_iff.1 hb))

/-- Removing the child of a name removes what the child covers. -/
theorem query_delete_child {name : String} (h : Path.IsName name) (q : Path) :
    (t.delete (Path.child p name)).query q
      = if (Path.child p name).Covers q then none else t.query q := by
  rw [query_delete]
  refine if_congr ?_ rfl rfl
  rw [Path.startsWith_iff, Path.toList_below_child h]
  exact or_congr_left eq_comm

/-- What a listing passes over has no name below the path. -/
theorem children_eq_filterMap :
    t.children p = t.nodes.keys.filterMap (Path.childName? (Path.below p)) := by
  unfold children scanBelow
  rw [SortedMap.scan_eq_filter t.nodes.ascending, SortedMap.keys, List.filterMap_map,
    List.filterMap_filter]
  refine List.filterMap_congr fun node _ => ?_
  split
  · rfl
  · rename_i h
    symm
    simp only [Function.comp_apply, Path.childName?, if_neg h]

/-- **A listing holds the names whose nodes are there.** -/
theorem mem_children_iff {name : String} :
    name ∈ t.children p ↔ Path.IsName name ∧ (t.query (Path.below p ++ name)).isSome := by
  rw [children_eq_filterMap, List.mem_filterMap]
  constructor
  · rintro ⟨key, hkey, hname⟩
    obtain ⟨hn, rfl⟩ := Path.childName?_eq_some_iff.1 hname
    exact ⟨hn, (SortedMap.mem_keys_iff _).1 hkey⟩
  · rintro ⟨hn, hsome⟩
    exact ⟨_, (SortedMap.mem_keys_iff _).2 hsome, Path.childName?_eq_some_iff.2 ⟨hn, rfl⟩⟩

/-- Listings are in strict order. -/
theorem children_ascending : (t.children p).Pairwise (· < ·) := by
  rw [children_eq_filterMap]
  refine (SortedMap.keys_ascending t.nodes).filterMap _ ?_
  intro a b hab x hx y hy
  obtain ⟨-, rfl⟩ := Path.childName?_eq_some_iff.1 hx
  obtain ⟨-, rfl⟩ := Path.childName?_eq_some_iff.1 hy
  exact append_lt_append_iff.1 hab

end Tree

/-! ### The ordered table -/

namespace NodeTable

variable (t : NodeTable) (p : Path) (v : String)

/-- **The scan finds what a filter would find**, since rows with a common front stand together. -/
theorem scanBelow_eq (front : String) :
    t.scanBelow front = t.rows.entries.filter fun row => Path.startsWith row.1 front :=
  SortedMap.scan_eq_filter t.rows.ascending

/-- The rows after writing are the nodes of the tree after writing. -/
theorem rows_persist : (t.persist p v).rows = ((⟨t.rows⟩ : Tree).persist p v).nodes := by
  unfold persist Tree.persist
  -- a row is made for each node above if it is not there, and this is to touch the node
  have hfold : ∀ (l : List Path) (rows : SortedMap String),
      l.foldl (fun rows a => if (rows.get? a).isNone then rows.insert a "" else rows) rows
        = (l.foldl Tree.touch ⟨rows⟩).nodes := by
    intro l
    induction l with
    | nil => intro rows; rfl
    | cons a l ih =>
      intro rows
      rw [List.foldl_cons, List.foldl_cons, ih]
      congr 2
      unfold Tree.touch SortedMap.contains
      cases rows.get? a <;> rfl
  exact congrArg (fun rows => rows.insert p v) (hfold _ t.rows)

/-- Keys that are removed one after the other are gone, and no others. -/
theorem get?_foldl_erase (keys : List String) (rows : SortedMap String) (k : String) :
    (keys.foldl (fun rows key => rows.erase key) rows).get? k
      = if k ∈ keys then none else rows.get? k := by
  induction keys generalizing rows with
  | nil => simp
  | cons key keys ih =>
    rw [List.foldl_cons, ih, SortedMap.get?_erase]
    by_cases hk : k = key <;> by_cases hm : k ∈ keys <;> simp [hk, hm]

/-- The rows after removing are the nodes of the tree after removing. -/
theorem rows_delete : (t.delete p).rows = ((⟨t.rows⟩ : Tree).delete p).nodes := by
  refine SortedMap.ext fun k => ?_
  have htree := Tree.query_delete ⟨t.rows⟩ p k
  unfold Tree.query at htree
  rw [htree]
  unfold delete
  rw [SortedMap.get?_erase, get?_foldl_erase, scanBelow_eq]
  have hmem : k ∈ (t.rows.entries.filter fun row => Path.startsWith row.1 (Path.below p)).map (·.1)
      ↔ k ∈ t.rows.keys ∧ Path.startsWith k (Path.below p) := by
    simp only [SortedMap.keys, List.mem_map, List.mem_filter]
    constructor
    · rintro ⟨row, ⟨hrow, hb⟩, rfl⟩
      exact ⟨⟨row, hrow, rfl⟩, hb⟩
    · rintro ⟨⟨row, hrow, rfl⟩, hb⟩
      exact ⟨row, ⟨hrow, hb⟩, rfl⟩
  by_cases hk : k = p
  · rw [if_pos hk, if_pos (.inl hk)]
  · rw [if_neg (show ¬ k = p from hk)]
    by_cases hb : Path.startsWith k (Path.below p) = true
    · rw [if_pos (Or.inr hb : k = p ∨ _)]
      -- a key that is not there is not removed, and is not there afterwards either
      by_cases hrow : k ∈ t.rows.keys
      · rw [if_pos (hmem.2 ⟨hrow, hb⟩)]
      · rw [if_neg fun h => hrow (hmem.1 h).1]
        rw [SortedMap.mem_keys_iff, SortedMap.contains] at hrow
        simpa using hrow
    · rw [if_neg fun h => hb (hmem.1 h).2, if_neg fun h => h.elim hk hb]

/-- The table and the tree scan the same entries. -/
theorem children_eq : t.children p = (⟨t.rows⟩ : Tree).children p := rfl

end NodeTable

/-! ### Both repositories -/

namespace Repository

variable (r : Repository) (p : Path) (v : String)

/-- The tree that a repository holds. -/
def tree (r : Repository) : Tree := ⟨r.nodes⟩

/-- The tree of a repository is read like the repository. -/
@[simp] theorem query_tree : r.tree.query p = r.query p := by
  cases r <;> rfl

/-- Writing to a repository is writing to its tree. -/
@[simp] theorem tree_persist : (r.persist p v).tree = r.tree.persist p v := by
  cases r with
  | memory t => rfl
  | file t => exact congrArg Tree.mk (NodeTable.rows_persist t p v)

/-- Removing from a repository is removing from its tree. -/
@[simp] theorem tree_delete : (r.delete p).tree = r.tree.delete p := by
  cases r with
  | memory t => rfl
  | file t => exact congrArg Tree.mk (NodeTable.rows_delete t p)

/-- The text of a node is found under its path. -/
theorem query_eq_get? : r.query p = r.nodes.get? p := by
  cases r <;> rfl

/-- In an empty repository nothing is found. -/
theorem query_of_nodes_eq_empty {r : Repository} (h : r.nodes = ∅) (p : Path) :
    r.query p = none := by
  rw [query_eq_get?, h]
  rfl

/-- The names that a repository lists are those of its tree. -/
theorem children_tree : r.children p = r.tree.children p := by
  cases r with
  | memory t => rfl
  | file t => exact NodeTable.children_eq t p

variable {q : Path}

/-- **What is read after writing**: the written text, the same text as before, or an empty one at a node
above that was not there. -/
theorem query_persist :
    (r.persist p v).query q
      = if q = p then some v
        else if q ∈ Path.ancestors p then some ((r.query q).getD "") else r.query q := by
  simp only [← query_tree, tree_persist]
  exact Tree.query_persist r.tree p v q

/-- What was written last is read. -/
@[simp] theorem query_persist_self : (r.persist p v).query p = some v := by
  rw [query_persist, if_pos rfl]

/-- Writing reaches no node but those that cover the path. -/
theorem query_persist_of_not_covers (h : ¬ q.Covers p) : (r.persist p v).query q = r.query q := by
  simp only [← query_tree, tree_persist]
  exact Tree.query_persist_of_not_covers r.tree p v h

/-- Writing does not change the text of another node that is there. -/
theorem query_persist_of_isSome (hne : q ≠ p) (h : (r.query q).isSome) :
    (r.persist p v).query q = r.query q := by
  simp only [← query_tree, tree_persist] at h ⊢
  exact Tree.query_persist_of_isSome r.tree p v hne h

/-- What writing makes of another node: nothing, or an empty node above the written one. -/
theorem query_persist_eq (hne : q ≠ p) :
    (r.persist p v).query q = r.query q
      ∨ q.IsAbove p ∧ r.query q = none ∧ (r.persist p v).query q = some "" := by
  simp only [← query_tree, tree_persist]
  exact Tree.query_persist_eq r.tree p v hne

/-- Writing removes nothing. -/
theorem isSome_query_persist (h : (r.query q).isSome) : ((r.persist p v).query q).isSome := by
  simp only [← query_tree, tree_persist] at h ⊢
  exact Tree.isSome_query_persist r.tree p v h

/-- A write leaves the node that it writes and the nodes above it. -/
theorem isSome_query_persist_of_covers (hq : q ≠ "") (h : q.Covers p) :
    ((r.persist p v).query q).isSome := by
  rcases h with rfl | habove
  · rw [query_persist_self]
    rfl
  · rw [query_persist, if_neg habove.ne, if_pos (Path.mem_ancestors_iff.2 ⟨hq, habove⟩)]
    rfl

/-- **What is read after removing**: nothing at the node and below it, and all else as before. -/
theorem query_delete :
    (r.delete p).query q
      = if q = p ∨ Path.startsWith q (Path.below p) then none else r.query q := by
  simp only [← query_tree, tree_delete]
  exact Tree.query_delete r.tree p q

/-- Removing reaches only paths that start with the removed one. -/
theorem query_delete_of_not_front (h : ¬ p.toList <+: q.toList) :
    (r.delete p).query q = r.query q := by
  simp only [← query_tree, tree_delete]
  exact Tree.query_delete_of_not_front r.tree p h

/-- A child that is removed is gone with all that it covers. -/
theorem query_delete_child {name : String} (h : Path.IsName name) :
    (r.delete (Path.child p name)).query q
      = if (Path.child p name).Covers q then none else r.query q := by
  simp only [← query_tree, tree_delete]
  exact Tree.query_delete_child r.tree p h q

/-- **A name is listed** if it can stand in a path and has a node. -/
theorem mem_children_iff {name : String} :
    name ∈ r.children p ↔ Path.IsName name ∧ (r.query (Path.below p ++ name)).isSome := by
  rw [children_tree, Tree.mem_children_iff, query_tree]

/-- Listings with the same names are equal, also in different repositories. -/
theorem children_ext {r' : Repository} (h : ∀ name, name ∈ r.children p ↔ name ∈ r'.children p) :
    r.children p = r'.children p := by
  simp only [children_tree] at h ⊢
  exact eq_of_ascending (Tree.children_ascending _ p) (Tree.children_ascending _ p) h

end Repository

end ClusterCatalog
