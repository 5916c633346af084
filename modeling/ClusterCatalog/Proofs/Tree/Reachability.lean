import Mathlib.Data.List.Fold
import Mathlib.Data.List.MinMax
import Mathlib.Logic.Relation
import ClusterCatalog.Proofs.SortedMap
import ClusterCatalog.Proofs.Tree.History

/-!
# Nodes and listings

A repository keeps texts under flat keys, and nothing in a key says that it can be found. Readers find
nodes by listing: they begin at the root, list a node, and go on with what is listed. So a node that is
there must be found in this way, and a listing must not tell of nodes that are not there.

* `Repository.Rooted` — with a node there are the nodes above it. A write creates them, and a removal takes
  everything away that stands below a removed node, whatever the paths are.
* `Repository.Lists` — one step downwards, from a node to one that its listing names.
* `Repository.Rooted.mem_descend` — in a rooted repository a node with a well-formed path is found on the
  way down from any node above it: the node with the next name is there, and it is listed.

Listings are exact in every repository (`Repository.mem_children_iff`). A history of well-formed changes
leaves a rooted repository of well-formed paths, and there the nodes are just what is reached
(`TreeChange.reached_replay`).
-/

namespace ClusterCatalog

open Repository

namespace Path

/-- The root, which is listed but has no text. -/
def root : Path := "/"

/-- What stands below the root has one slash in front. -/
theorem below_root_append (name : String) : below root ++ name = child "" name := by
  rw [← String.toList_inj, String.toList_append, toList_child]
  simp [below, root]

/-- A path has at least as many characters as names. -/
theorem length_le_ofNames (names : List String) : names.length ≤ (ofNames names).length := by
  induction names using List.reverseRecOn with
  | nil => exact Nat.zero_le _
  | append_singleton names name ih =>
    have hslash : "/".length = 1 := rfl
    rw [ofNames_concat, child, String.length_append, String.length_append, List.length_append, hslash,
      List.length_singleton]
    omega

/-- What stands below a well-formed path is a child of it. -/
theorem WellFormed.below_append {p : Path} (h : p.WellFormed) (name : String) :
    below p ++ name = child p name := by
  obtain ⟨parent, node, hnode, rfl⟩ := h.exists_eq_child
  exact below_child_append hnode name

/-- A path that covers a well-formed one is well-formed, unless it is empty. -/
theorem WellFormed.of_covers {p q : Path} (h : q.WellFormed) (hp : p ≠ "") (hcovers : p.Covers q) :
    p.WellFormed := by
  obtain ⟨names, -, hnames, rfl⟩ := h
  induction names using List.reverseRecOn with
  | nil =>
    rcases hcovers with rfl | habove
    · exact absurd rfl hp
    · exact absurd (List.prefix_nil.1 habove) (by simp)
  | append_singleton names name ih =>
    rw [List.forall_mem_append, List.forall_mem_singleton] at hnames
    rw [ofNames_concat, covers_child_iff hnames.2.2, ← ofNames_concat] at hcovers
    -- it is the path itself, or it is above the path without its last name
    rcases hcovers with rfl | hcovers
    · exact ⟨names ++ [name], by simp, List.forall_mem_append.2
        ⟨hnames.1, List.forall_mem_singleton.2 hnames.2⟩, rfl⟩
    · exact ih hnames.1 hcovers

end Path

namespace Repository

/-! ### Nodes above a node -/

/-- **With a node there are the nodes above it.** -/
def Rooted (r : Repository) : Prop :=
  ∀ p q : Path, (r.query q).isSome → p ≠ "" → p.IsAbove q → (r.query p).isSome

variable {r : Repository} {p q : Path} {v : String}

theorem rooted_of_nodes_eq_empty (h : r.nodes = ∅) : Rooted r := by
  intro p q hq
  rw [query_of_nodes_eq_empty h] at hq
  cases hq

/-- It is enough to look at the nodes that are there. -/
theorem rooted_of_ancestors (h : ∀ q ∈ r.nodes.keys, ∀ a ∈ Path.ancestors q, (r.query a).isSome) :
    Rooted r := by
  intro a q hq ha habove
  rw [query_eq_get?] at hq
  exact h q (r.nodes.mem_keys_iff.2 hq) a (Path.mem_ancestors_iff.2 ⟨ha, habove⟩)

/-- A write creates the nodes above the one it writes. -/
theorem Rooted.persist (h : Rooted r) : Rooted (r.persist p v) := by
  intro a q hq ha habove
  by_cases hcovers : Path.Covers a p
  · exact isSome_query_persist_of_covers _ _ _ ha hcovers
  · -- then what stands below is not created by the write, so it was there
    rw [query_persist_of_not_covers _ _ _ fun hq => hcovers (habove.trans_covers hq).covers] at hq
    exact isSome_query_persist _ _ _ (h a q hq ha habove)

/-- Removing a node removes everything below the nodes that it removes. -/
theorem Rooted.delete (h : Rooted r) : Rooted (r.delete p) := by
  intro a q hq ha habove
  rw [query_delete] at hq ⊢
  split at hq
  · cases hq
  · rename_i hkept
    rw [if_neg]
    · exact h a q hq ha habove
    · -- what stands below a removed node is removed
      obtain ⟨rest, hrest⟩ := habove
      rintro (rfl | hfront)
      · refine hkept (.inr (Path.startsWith_iff.2 ?_))
        unfold Path.below
        split
        · exact ⟨'/' :: rest, by rw [← hrest]; simp⟩
        · exact ⟨rest, by rw [← hrest]; simp⟩
      · refine hkept (.inr (Path.startsWith_iff.2 ((Path.startsWith_iff.1 hfront).trans ?_)))
        exact ⟨'/' :: rest, by rw [← hrest]; simp⟩

/-- **All nodes have well-formed paths.** -/
def Formed (r : Repository) : Prop := ∀ q, (r.query q).isSome → q.WellFormed

theorem formed_of_nodes_eq_empty (h : r.nodes = ∅) : Formed r := by
  intro q hq
  rw [query_of_nodes_eq_empty h] at hq
  cases hq

/-- The nodes that a write creates stand above a well-formed path. -/
theorem Formed.persist (h : Formed r) (hp : p.WellFormed) : Formed (r.persist p v) := by
  intro q hq
  rw [query_persist] at hq
  split at hq
  · rename_i heq
    exact heq ▸ hp
  · split at hq
    · rename_i hmem
      obtain ⟨hne, habove⟩ := Path.mem_ancestors_iff.1 hmem
      exact hp.of_covers hne habove.covers
    · exact h q hq

theorem Formed.delete (h : Formed r) : Formed (r.delete p) := by
  intro q hq
  rw [query_delete] at hq
  split at hq
  · cases hq
  · exact h q hq

/-! ### Going down -/

/-- **A step downwards**: the listing of a node names another one. -/
def Lists (r : Repository) (p q : Path) : Prop := ∃ name ∈ r.children p, q = step p name

/-- What is listed is there. -/
theorem Lists.isSome (h : r.Lists p q) : (r.query q).isSome := by
  obtain ⟨name, hname, rfl⟩ := h
  exact ((mem_children_iff _ _).1 hname).2

/-- What is found on the way down is reached by steps, and is there with its text. -/
theorem reached_of_mem_descend {depth : Nat} {e : Path × String} (h : e ∈ r.descend depth p) :
    Relation.TransGen r.Lists p e.1 ∧ r.query e.1 = some e.2 := by
  induction depth generalizing p with
  | zero => exact absurd h List.not_mem_nil
  | succ depth ih =>
    obtain ⟨name, hname, he⟩ := List.mem_flatMap.1 h
    have hlists : r.Lists p (step p name) := ⟨name, hname, rfl⟩
    rcases List.mem_cons.1 he with rfl | he
    · obtain ⟨v, hv⟩ := Option.isSome_iff_exists.1 hlists.isSome
      refine ⟨.single hlists, ?_⟩
      rw [hv]
      rfl
    · exact ⟨.head hlists (ih he).1, (ih he).2⟩

/-- **A node is found on the way down** from a node above it, if the way down is long enough. By induction over
the names in between: the node with the first of them is listed, since it is at or above the other one. -/
theorem Rooted.mem_descend (h : Rooted r) (front : List String) {names : List String} (hne : names ≠ [])
    (hfront : ∀ name ∈ front ++ names, Path.IsName name)
    (hp : ∀ name, step p name = Path.ofNames (front ++ [name]))
    (hq : r.query (Path.ofNames (front ++ names)) = some v) {depth : Nat} (hdepth : names.length ≤ depth) :
    (Path.ofNames (front ++ names), v) ∈ r.descend depth p := by
  induction names generalizing front p depth with
  | nil => exact absurd rfl hne
  | cons name names ih =>
    obtain ⟨depth, rfl⟩ := Nat.exists_eq_add_one_of_ne_zero (Nat.ne_zero_of_lt hdepth)
    rw [List.append_cons] at hfront hq ⊢
    have hnames : ∀ x ∈ front ++ [name], Path.IsName x := fun x hx => hfront x (List.mem_append_left _ hx)
    -- the node of the first name is the one that is sought, or it is above that
    have hnode : (r.query (Path.ofNames (front ++ [name]))).isSome := by
      have hsome : (r.query (Path.ofNames (front ++ [name] ++ names))).isSome := Option.isSome_of_eq_some hq
      rcases (Path.ofNames_covers_iff hnames hfront).2 (List.prefix_append _ names) with heq | habove
      · rw [heq]
        exact hsome
      · exact h _ _ hsome (Path.ofNames_eq_empty_iff.not.2 (by simp)) habove
    have hlisted : name ∈ r.children p := by
      refine (mem_children_iff _ _).2 ⟨hfront name (by simp), ?_⟩
      rw [← step, hp]
      exact hnode
    refine List.mem_flatMap.2 ⟨name, hlisted, ?_⟩
    rw [hp]
    -- the way ends here, or it goes on below the node
    by_cases hlast : names = []
    · subst hlast
      rw [List.append_nil] at hq ⊢
      rw [hq]
      exact List.mem_cons_self
    · have hformed : (Path.ofNames (front ++ [name])).WellFormed := ⟨_, by simp, hnames, rfl⟩
      refine List.mem_cons_of_mem _ (ih _ hlast hfront (fun x => ?_) hq (Nat.le_of_succ_le_succ hdepth))
      exact (hformed.below_append x).trans (Path.ofNames_concat _ x).symm

/-- **Each node is reached from the root**, step by step. -/
theorem Rooted.reached (h : Rooted r) (hformed : Formed r) (hq : (r.query q).isSome) :
    Relation.TransGen r.Lists Path.root q := by
  obtain ⟨v, hv⟩ := Option.isSome_iff_exists.1 hq
  obtain ⟨names, hne, hnames, rfl⟩ := hformed q hq
  exact (reached_of_mem_descend
    (h.mem_descend [] hne hnames Path.below_root_append hv le_rfl)).1

/-- **What is reached from the root is the whole repository**, with all its texts. -/
theorem Rooted.reachable_root (h : Rooted r) (hformed : Formed r) : r.reachable Path.root = r.nodes := by
  have hmem : ∀ q v, (q, v) ∈ r.descend ((r.nodes.keys.map String.length).foldl max 0 + 1) Path.root
      ↔ r.query q = some v := by
    refine fun q v => ⟨fun hfound => (reached_of_mem_descend hfound).2, fun hq => ?_⟩
    have hsome : (r.query q).isSome := Option.isSome_of_eq_some hq
    obtain ⟨names, hne, hnames, rfl⟩ := hformed q hsome
    refine h.mem_descend [] hne hnames Path.below_root_append hq ?_
    -- a path is at least as long as the way down to it
    rw [query_eq_get?] at hsome
    have hlength : (Path.ofNames names).length ∈ r.nodes.keys.map String.length :=
      List.mem_map_of_mem (r.nodes.mem_keys_iff.2 hsome)
    calc names.length ≤ (Path.ofNames names).length := Path.length_le_ofNames names
      _ ≤ (r.nodes.keys.map String.length).foldl max 0 := by
        rw [List.foldl_eq_foldr]
        exact List.le_max_of_le' 0 hlength le_rfl
      _ ≤ _ := Nat.le_succ _
  refine SortedMap.ext fun q => ?_
  rw [← query_eq_get?]
  cases hget : (r.reachable Path.root).get? q with
  | some v => exact ((hmem q v).1 (SortedMap.mem_of_get?_ofList hget)).symm
  | none =>
    -- a node that is there would have been found
    by_contra hne
    obtain ⟨v, hv⟩ := Option.ne_none_iff_exists'.1 (Ne.symm hne)
    have hcontains := SortedMap.contains_ofList.2 ⟨v, (hmem q v).2 hv⟩
    rw [SortedMap.contains, Option.isSome_iff_ne_none] at hcontains
    exact hcontains hget

end Repository

namespace TreeChange

variable {r : Repository} {changes : List TreeChange}

/-- **Every history leaves a rooted repository**, whatever the paths of its changes are. -/
theorem rooted_replay (h : Rooted r) (changes : List TreeChange) : Rooted (replay r changes) := by
  induction changes generalizing r with
  | nil => exact h
  | cons c changes ih =>
    refine ih ?_
    cases c with
    | persist path value => exact h.persist
    | delete path => exact h.delete

/-- A history of well-formed writes leaves well-formed nodes. -/
theorem formed_replay (h : Formed r) (hchanges : ∀ c ∈ changes, c.path.WellFormed ∨ c = delete Path.root) :
    Formed (replay r changes) := by
  induction changes generalizing r with
  | nil => exact h
  | cons c changes ih =>
    rw [List.forall_mem_cons] at hchanges
    refine ih ?_ hchanges.2
    cases c with
    | persist path value => exact h.persist (hchanges.1.resolve_right (by simp))
    | delete path => exact h.delete

/-- **Nodes are what is reached, and listings are exact.** After any writes and removals at well-formed
paths in an empty repository, and removals of the whole tree, the nodes are those that are reached from
the root by listing one node after the other, and who goes all the ways down gets all nodes with their
texts. A listing is strictly ascending, and it has just the names of the nodes that stand directly below. -/
theorem reached_replay (r : Repository) (hempty : r.nodes = ∅) (changes : List TreeChange)
    (hchanges : ∀ c ∈ changes, c.path.WellFormed ∨ c = delete Path.root) :
    let s := replay r changes
    (∀ q, (s.query q).isSome ↔ Relation.TransGen s.Lists Path.root q)
      ∧ s.reachable Path.root = s.nodes
      ∧ (∀ p, (s.children p).Pairwise (· < ·))
      ∧ (∀ name, name ∈ s.children Path.root
        ↔ Path.IsName name ∧ (s.query (Path.child "" name)).isSome)
      ∧ ∀ p, p.WellFormed → ∀ name, name ∈ s.children p
        ↔ Path.IsName name ∧ (s.query (Path.child p name)).isSome := by
  intro s
  -- every step keeps the tree rooted and its paths well-formed, and then all of it is reached
  have hrooted : Rooted s := rooted_replay (rooted_of_nodes_eq_empty hempty) changes
  have hformed : Formed s := formed_replay (formed_of_nodes_eq_empty hempty) hchanges
  refine ⟨fun q => ⟨hrooted.reached hformed, fun h => ?_⟩, hrooted.reachable_root hformed, fun p => ?_,
    fun name => ?_, fun p hp name => ?_⟩
  · -- the last step of the way down has listed the node
    obtain ⟨p, -, hlists⟩ := Relation.TransGen.tail'_iff.1 h
    exact hlists.isSome
  · rw [children_tree]
    exact s.tree.children_ascending p
  · rw [mem_children_iff, Path.below_root_append]
  · rw [mem_children_iff, hp.below_append]

/-- The whole tree is removed, and afterwards one of two nodes below a written one. A name that continues
another one after a character that comes before the slash does not get in between. -/
theorem reached_replay_over_removals :
    let changes := [persist "/a/b/c" "x", delete Path.root, persist "/p/versions/0" "y",
      persist "/p-1" "z", persist "/p/active_version" "0", delete "/p/versions"]
    let s := replay (.memory .empty) changes
    (∀ c ∈ changes, c.path.WellFormed ∨ c = delete Path.root)
      ∧ Relation.TransGen s.Lists Path.root "/p/active_version"
      ∧ "p-1" ∈ s.children Path.root
      ∧ Path.WellFormed "/p" ∧ "active_version" ∈ s.children "/p" ∧ "versions" ∉ s.children "/p" := by
  intro changes s
  have hfirst : Path.WellFormed "/a/b/c" := ⟨["a", "b", "c"], by decide, by decide, by decide⟩
  have hitem : Path.WellFormed "/p" := ⟨["p"], by decide, by decide, by decide⟩
  have hversion : Path.WellFormed "/p/versions/0" := ⟨["p", "versions", "0"], by decide, by decide, by decide⟩
  have hsibling : Path.WellFormed "/p-1" := ⟨["p-1"], by decide, by decide, by decide⟩
  have hpointer : Path.WellFormed "/p/active_version" := ⟨["p", "active_version"], by decide, by decide, by decide⟩
  have hversions : Path.WellFormed "/p/versions" := ⟨["p", "versions"], by decide, by decide, by decide⟩
  -- all changes are of well-formed paths, and the one at the root is the removal of everything
  have hchanges : ∀ c ∈ changes, c.path.WellFormed ∨ c = delete Path.root := by
    simp only [changes, List.forall_mem_cons]
    exact ⟨.inl hfirst, .inr trivial, .inl hversion, .inl hsibling, .inl hpointer, .inl hversions,
      fun _ h => absurd h List.not_mem_nil⟩
  obtain ⟨hreached, -, -, hroot, hlisted⟩ := reached_replay (.memory .empty) rfl changes hchanges
  refine ⟨hchanges, (hreached _).1 (by decide), (hroot _).2 (by decide), hitem,
    (hlisted _ hitem _).2 (by decide), fun h => ?_⟩
  exact absurd ((hlisted _ hitem _).1 h).2 (by decide)

end TreeChange

end ClusterCatalog
