import ClusterCatalog.Proofs.Store.Batch
import ClusterCatalog.Proofs.Store.Refinement
import ClusterCatalog.Store.Rules

/-!
# The rules of a database refine a nested map

The rules that are stored for a database amount to a **table**, a map of rules to items to values
(`RuleTable`). Configurations are put into it, items or whole rules are taken out (`RuleOperation`). In
the repository each item is versioned on its own, and its new revisions are staged in a batch that is
committed afterwards. The relation between the two is `RuleTable.StoredIn`: a rule has a node just if it
is in the table, and each item has its part of the batch as its queue and will show the text of its
value.

* `RuleTable.StoredIn.keeps_stage`, `RuleTable.StoredIn.keeps_commit`, `RuleTable.StoredIn.delete` — what
  the ways of writing do to the relation;
* `RuleOperation.refines_access` — an operation refines its change of the table;
* `RuleOperation.loads_table` — so after each operation of a run, the rules that are loaded are those of
  the table.
-/

namespace ClusterCatalog

open Plan Repository

/-! ### Tables of rules -/

/-- **A table of rules**: the items of each rule. -/
abbrev RuleTable := SortedMap (SortedMap Value)

/-- The place of an item of a rule. -/
structure RuleKey where
  rule : String
  item : String
deriving DecidableEq

namespace RuleKey

variable {db : String} {k j : RuleKey}

/-- The path of an item. -/
def path (db : String) (k : RuleKey) : Path := Path.databaseRuleItem db k.rule k.item

/-- Whether a place consists of names. -/
def Named (k : RuleKey) : Prop := Path.IsName k.rule ∧ Path.IsName k.item

theorem rule_isAbove_path (db : String) (k : RuleKey) :
    (Path.databaseRule db k.rule).IsAbove (k.path db) := Path.isAbove_child _ _

theorem apart_rule (db : String) {a b : String} (ha : Path.IsName a) (hb : Path.IsName b)
    (hne : a ≠ b) :
    (Path.databaseRule db a).Apart (Path.databaseRule db b) := Path.apart_child ha.2 hb.2 hne

/-- Different items are apart, those of one rule and those of different rules. -/
theorem apart_path (hk : k.Named) (hj : j.Named) (hne : j ≠ k) : (k.path db).Apart (j.path db) := by
  obtain ⟨rule, item⟩ := k
  obtain ⟨rule', item'⟩ := j
  by_cases hrule : rule = rule'
  · subst hrule
    exact Path.apart_child hk.2.2 hj.2.2 fun h : item = item' => hne (h ▸ rfl)
  · exact (apart_rule db hk.1 hj.1 hrule).mono (Path.isAbove_child _ _).covers
      (Path.isAbove_child _ _).covers

end RuleKey

namespace RuleTable

variable {t t' : RuleTable} {rule : String} {k : RuleKey} {v : Value}

/-- **A configuration is put in**: its items are laid over those of the rule. One without items adds
nothing, not even the rule. -/
def put (t : RuleTable) (x : NamedRule) : RuleTable :=
  if x.items.isEmpty then t else t.insert x.name (((t.get? x.name).getD ∅).overlay x.items)

/-- **The items of a configuration are taken out** of its rule. A rule stays, even without items, and no
rule comes about. -/
def takeOut (t : RuleTable) (x : NamedRule) : RuleTable :=
  match t.get? x.name with
  | some items => t.insert x.name (items.filter fun item _ => !x.items.contains item)
  | none => t

/-- The configurations of the rules, in ascending order of their names. -/
def rules (t : RuleTable) : List Rule := t.entries.map fun e => .named ⟨e.1, e.2⟩

/-- The text of an item. -/
def text (t : RuleTable) (k : RuleKey) : Option String :=
  (((t.get? k.rule).getD ∅).get? k.item).map Codec.write

/-! ### Changes item by item -/

/-- The table with one more item. -/
def putItem (t : RuleTable) (k : RuleKey) (v : Value) : RuleTable :=
  t.insert k.rule (((t.get? k.rule).getD ∅).insert k.item v)

/-- The table without an item. -/
def eraseItem (t : RuleTable) (k : RuleKey) : RuleTable :=
  match t.get? k.rule with
  | some items => t.insert k.rule (items.erase k.item)
  | none => t

/-- Putting in an item changes its own text only. -/
theorem text_putItem (j : RuleKey) :
    (t.putItem k v).text j = if j = k then some (Codec.write v) else t.text j := by
  obtain ⟨rule, item⟩ := k
  obtain ⟨rule', item'⟩ := j
  unfold text putItem
  rw [SortedMap.get?_insert]
  by_cases hrule : rule' = rule
  · subst hrule
    rw [if_pos rfl, Option.getD_some, SortedMap.get?_insert]
    by_cases hitem : item' = item <;> simp [hitem]
  · simp [hrule]

theorem contains_putItem :
    (t.putItem k v).contains rule = true ↔ t.contains rule = true ∨ rule = k.rule := by
  unfold SortedMap.contains putItem
  rw [SortedMap.get?_insert]
  by_cases hrule : rule = k.rule <;> simp [hrule]

/-- Taking out an item takes away its own text only. -/
theorem text_eraseItem (j : RuleKey) : (t.eraseItem k).text j = if j = k then none else t.text j := by
  obtain ⟨rule, item⟩ := k
  obtain ⟨rule', item'⟩ := j
  unfold text eraseItem
  cases hget : t.get? rule with
  | none =>
    -- there was no such rule, so nothing had to be taken out
    by_cases hrule : rule' = rule
    · subst hrule
      simp [hget, show ((∅ : SortedMap Value).get? item') = none from rfl]
    · simp [hrule]
  | some items =>
    rw [SortedMap.get?_insert]
    by_cases hrule : rule' = rule
    · subst hrule
      rw [if_pos rfl, Option.getD_some, SortedMap.get?_erase, hget]
      by_cases hitem : item' = item <;> simp [hitem]
    · simp [hrule]

theorem contains_eraseItem : (t.eraseItem k).contains rule = t.contains rule := by
  unfold SortedMap.contains eraseItem
  split
  · rename_i items hget
    rw [SortedMap.get?_insert]
    by_cases hrule : rule = k.rule <;> simp [hrule, hget]
  · rfl

theorem text_erase (rule : String) (k : RuleKey) :
    text (SortedMap.erase t rule) k = if k.rule = rule then none else t.text k := by
  unfold text
  rw [SortedMap.get?_erase]
  by_cases hrule : k.rule = rule
  · simp [hrule, show ((∅ : SortedMap Value).get? k.item) = none from rfl]
  · simp [hrule]

theorem contains_erase (rule rule' : String) :
    SortedMap.contains (SortedMap.erase t rule) rule' = true
      ↔ t.contains rule' = true ∧ rule' ≠ rule := by
  unfold SortedMap.contains
  rw [SortedMap.get?_erase]
  by_cases hrule : rule' = rule <;> simp [hrule]

/-- Putting items into a rule that is there changes its entry alone. -/
theorem foldl_putItem_insert (t : RuleTable) (name : String) (items : SortedMap Value)
    (l : List (String × Value)) :
    l.foldl (fun (t : RuleTable) e => t.putItem ⟨name, e.1⟩ e.2) (t.insert name items)
      = t.insert name (l.foldl (fun items e => items.insert e.1 e.2) items) := by
  induction l generalizing items with
  | nil => rfl
  | cons e l ih =>
    rw [List.foldl_cons, List.foldl_cons, ← ih]
    refine congrArg (l.foldl _) (SortedMap.ext fun key => ?_)
    unfold putItem
    rw [SortedMap.get?_insert_self, SortedMap.get?_insert, SortedMap.get?_insert,
      SortedMap.get?_insert]
    split <;> rfl

/-- **Putting a configuration in** is putting in its items one after the other. -/
theorem put_eq_foldl (t : RuleTable) (x : NamedRule) :
    t.put x = x.items.entries.foldl (fun t e => t.putItem ⟨x.name, e.1⟩ e.2) t := by
  unfold put SortedMap.isEmpty SortedMap.overlay
  cases x.items.entries with
  | nil => rfl
  | cons e l =>
    -- after the first item the rule is there
    rw [List.foldl_cons, List.foldl_cons, if_neg (by simp)]
    exact (foldl_putItem_insert t x.name _ l).symm

/-- Taking items of one rule out one after the other leaves the others of the rule. -/
theorem foldl_eraseItem (t : RuleTable) (name : String) (l : List String) :
    l.foldl (fun t item => t.eraseItem ⟨name, item⟩) t
      = match t.get? name with
        | some items => t.insert name (items.filter fun item _ => !decide (item ∈ l))
        | none => t := by
  induction l generalizing t with
  | nil =>
    cases hget : t.get? name with
    | none => rfl
    | some items =>
      -- nothing is taken out, and the rule keeps all of its items
      refine SortedMap.ext fun key => ?_
      show t.get? key = (t.insert _ _).get? key
      rw [SortedMap.get?_insert]
      split
      · rename_i heq
        rw [heq, hget]
        refine congrArg some (SortedMap.ext fun item => ?_)
        rw [SortedMap.get?_filter]
        cases items.get? item <;> rfl
      · rfl
  | cons item l ih =>
    rw [List.foldl_cons, ih]
    unfold eraseItem
    cases hget : t.get? name with
    | none => simp only [hget]
    | some items =>
      -- the tables are the same look-up by look-up, and in them those of the items of the rule
      simp only [SortedMap.get?_insert_self]
      refine SortedMap.ext fun key => ?_
      rw [SortedMap.get?_insert, SortedMap.get?_insert, SortedMap.get?_insert]
      split
      · refine congrArg some (SortedMap.ext fun item' => ?_)
        rw [SortedMap.get?_filter, SortedMap.get?_erase, SortedMap.get?_filter]
        by_cases heq : item' = item
        · cases items.get? item' <;> simp [heq, Option.filter]
        · simp [heq]
      · rfl

/-- **Taking out the items of a configuration** is taking them out one after the other. -/
theorem takeOut_eq_foldl (t : RuleTable) (x : NamedRule) :
    t.takeOut x = x.items.keys.foldl (fun t item => t.eraseItem ⟨x.name, item⟩) t := by
  have hkeys : ∀ item, x.items.contains item = decide (item ∈ x.items.keys) := fun item => by
    rw [Bool.eq_iff_iff, decide_eq_true_iff, SortedMap.mem_keys_iff]
  rw [foldl_eraseItem]
  unfold takeOut
  simp only [hkeys]

/-! ### The relation to a repository -/

variable {db : String} {r r' s : Repository} {written : List Path} {switches : List PendingSwitch}

/-- **A repository stands for a table** in the middle of a batch, where the items at the listed paths were
written to, once for each time they are listed. -/
structure StoredIn (db : String) (r : Repository) (written : List Path) (switches : List PendingSwitch)
    (t : RuleTable) : Prop where
  rooted : Rooted r
  rule : ∀ rule, Path.IsName rule →
    ((r.query (Path.databaseRule db rule)).isSome ↔ t.contains rule = true)
  batch : Item.Batch (fun k : {k : RuleKey // k.Named} => k.1.path db) r written switches
    fun k => t.text k.1

theorem storedIn_empty (h : r.nodes = ∅) : StoredIn db r [] [] ∅ where
  rooted := rooted_of_nodes_eq_empty h
  rule _ _ := by
    rw [query_of_nodes_eq_empty h]
    exact iff_of_false Bool.false_ne_true Bool.false_ne_true
  batch := Item.batch_of_nodes_eq_empty h

/-- Different items are apart. -/
theorem apart_items (db : String) (i j : {k : RuleKey // k.Named}) (hne : j ≠ i) :
    (i.1.path db).Apart (j.1.path db) := RuleKey.apart_path i.2 j.2 fun h => hne (Subtype.ext h)

/-- **Something is done to one item** that will show something afterwards. The rule of the item is
there then, and the other rules are as they were. -/
theorem StoredIn.of_item (h : StoredIn db r written switches t) (hk : k.Named)
    (hsame : ∀ root, (k.path db).Apart root → SameAt root r r') (hrooted : Rooted r')
    (hrule : ∀ rule, t'.contains rule = true ↔ t.contains rule = true ∨ rule = k.rule)
    (hshown : t'.text k ≠ none) {written' : List Path} {switches' : List PendingSwitch}
    (hbatch : Item.Batch (fun k : {k : RuleKey // k.Named} => k.1.path db) r' written' switches'
      fun k => t'.text k.1) : StoredIn db r' written' switches' t' where
  rooted := hrooted
  rule rule hname := by
    rw [hrule]
    by_cases heq : rule = k.rule
    · subst heq
      -- what will be shown has a node, and with it there are the nodes above it
      obtain ⟨v, hv⟩ := Option.ne_none_iff_exists'.1 hshown
      have hqueued := hbatch.queued ⟨k, hk⟩
      simp only [hv] at hqueued
      have hnode := hrooted _ _ hqueued.node (Path.child_ne_empty _ _) (k.rule_isAbove_path db)
      exact iff_of_true hnode (.inr rfl)
    · have hapart : (k.path db).Apart (Path.databaseRule db rule) :=
        (RuleKey.apart_rule db hk.1 hname (Ne.symm heq)).mono (k.rule_isAbove_path db).covers (.refl _)
      rw [hsame _ hapart _ (.refl _), h.rule rule hname, or_iff_left heq]
  batch := hbatch

/-- **Staging an item** puts it into the table, with its switch at the end of the batch. -/
theorem StoredIn.keeps_stage (h : StoredIn db s written switches t) (hk : k.Named)
    (hcount : written.count (k.path db) < maxRevision) (v : Value) :
    (Item.stage (k.path db) (Codec.write v)).Keeps sure (fun result s' => ∃ d, result = .ok d
      ∧ StoredIn db s' (written ++ [k.path db]) (switches ++ [d]) (t.putItem k v)) s := by
  -- keys with names are compared, as the batch does
  have htexts : ∀ j : {k : RuleKey // k.Named}, (t.putItem k v).text j.1
      = if j = ⟨k, hk⟩ then some (Codec.write v) else t.text j.1 := fun j =>
    (text_putItem j.1).trans (if_congr (by rw [Subtype.ext_iff]) rfl rfl)
  have hstage := h.batch.keeps_stage (apart_items db ⟨k, hk⟩) (Path.child_ne_empty _ _) hcount htexts
  have hframe := Access.keeps_sameAt_within (Item.uses_stage (k.path db) (Codec.write v)) s
  have hrooted := keeps_rooted (Item.stage (k.path db) (Codec.write v)) h.rooted
  refine (hstage.and (Access.keeps_of_unsure (hframe.and hrooted))).mono ?_
  rintro _ s' ⟨⟨d, rfl, hbatch⟩, hsame, hrooted⟩
  refine ⟨d, rfl, h.of_item hk hsame hrooted (fun rule => contains_putItem) ?_ hbatch⟩
  rw [text_putItem, if_pos rfl]
  exact Option.some_ne_none _

/-- **Staging items** one after the other. -/
theorem StoredIn.keeps_mapM_stage {β : Type} {key : β → RuleKey} {value : β → Value} {l : List β}
    (h : StoredIn db s written switches t) (hl : ∀ b ∈ l, (key b).Named)
    (hcount : ∀ path, (written ++ l.map fun b => (key b).path db).count path ≤ maxRevision) :
    (l.mapM fun b => Item.stage ((key b).path db) (Codec.write (value b))).Keeps sure
      (fun result s' => ∃ later, result = .ok later
        ∧ StoredIn db s' (written ++ l.map fun b => (key b).path db) (switches ++ later)
          (l.foldl (fun t b => t.putItem (key b) (value b)) t)) s := by
  induction l generalizing s written switches t with
  | nil => exact ⟨[], rfl, by rw [List.map_nil, List.append_nil, List.append_nil]; exact h⟩
  | cons b l ih =>
    rw [List.forall_mem_cons] at hl
    rw [List.map_cons, List.append_cons] at hcount ⊢
    -- the count of the whole list bounds the number that this item has been given
    have hlt : written.count ((key b).path db) < maxRevision := by
      have hle := hcount ((key b).path db)
      rw [List.count_append, List.count_append, List.count_singleton_self] at hle
      omega
    rw [List.mapM_cons]
    refine (h.keeps_stage hl.1 hlt (value b)).bind (fun d s₁ h₁ => ?_) fun _ _ ⟨_, h, _⟩ => by cases h
    obtain ⟨_, hd, h₁⟩ := h₁
    cases hd
    refine (ih h₁ hl.2 hcount).bind (fun later s₂ h₂ => ?_) fun _ _ ⟨_, h, _⟩ => by cases h
    obtain ⟨_, hlater, h₂⟩ := h₂
    cases hlater
    exact ⟨d :: later, rfl, by rw [List.append_cons switches]; exact h₂⟩

/-- **Committing the first switch** of a batch does not change the table. -/
theorem StoredIn.keeps_commitOne {switch : PendingSwitch}
    (h : StoredIn db s written (switch :: switches) t) :
    (Item.commitOne switch).Keeps sure (fun result s' => result = .ok ()
      ∧ StoredIn db s' written switches t) s := by
  obtain ⟨k, hk⟩ := h.batch.of_item switch List.mem_cons_self
  have hframe := Access.keeps_sameAt_within (Item.uses_commitOne switch) s
  have hrooted := keeps_rooted (Item.commitOne switch) h.rooted
  refine ((h.batch.keeps_commitOne (apart_items db)).and
    (Access.keeps_of_unsure (hframe.and hrooted))).mono ?_
  rintro _ s' ⟨⟨rfl, hbatch⟩, hsame, hrooted⟩
  rw [hk] at hsame
  -- a switch of the item is queued, so the item is in the table
  obtain ⟨v, hv⟩ := (h.batch.queued k).exists_shown
    (List.ne_nil_of_mem (List.mem_filter.2 ⟨List.mem_cons_self, by simpa using hk⟩))
  have hshown : t.text k.1 ≠ none := hv ▸ Option.some_ne_none v
  refine ⟨rfl, h.of_item k.2 hsame hrooted (fun rule => ?_) hshown hbatch⟩
  refine (or_iff_left_of_imp ?_).symm
  rintro rfl
  -- a rule with an item is in the table
  unfold text at hshown
  unfold SortedMap.contains
  cases hget : t.get? k.1.rule with
  | none =>
    rw [hget] at hshown
    exact absurd rfl hshown
  | some items => rfl

/-- **Committing a batch** does not change the table. -/
theorem StoredIn.keeps_commit (h : StoredIn db s written switches t) :
    (Item.commit switches).Keeps sure (fun result s' => result = .ok ()
      ∧ StoredIn db s' written [] t) s :=
  Keeps.forM (fun rest s => StoredIn db s written rest t) h
    (fun _ _ _ hs => hs.keeps_commitOne.mono fun _ _ h => by
      obtain ⟨rfl, hs'⟩ := h
      exact hs')
    fun _ hs => ⟨rfl, hs⟩

/-- **A node is removed** with everything below it: some items and rules. -/
theorem StoredIn.delete (h : StoredIn db r written [] t) {parent name : String}
    (hname : Path.IsName name)
    (hx : ∀ k : RuleKey, k.Named →
      (Path.child parent name).Apart (k.path db) ∧ t'.text k = t.text k
        ∨ (Path.child parent name).Covers (k.path db) ∧ t'.text k = none)
    (hrule : ∀ rule, Path.IsName rule → (t'.contains rule = true
      ↔ t.contains rule = true ∧ ¬ (Path.child parent name).Covers (Path.databaseRule db rule))) :
    StoredIn db (r.delete (Path.child parent name)) written [] t' where
  rooted := h.rooted.delete
  rule rule hisName := by
    rw [hrule rule hisName, ← h.rule rule hisName, query_delete_child _ _ hname]
    split <;> simp [*]
  batch := by
    refine h.batch.of_gone fun k => ?_
    -- a removed node takes the items that it covers, and leaves the others as they are
    refine (hx k.1 k.2).imp (fun ⟨hapart, htext⟩ => ⟨sameAt_delete_child hname hapart, htext⟩)
      fun ⟨hcovers, htext⟩ => ⟨fun q hq => ?_, htext⟩
    rw [query_delete_child _ _ hname, if_pos (hcovers.trans hq)]

/-- **An operation performs a change** of the table between batches. -/
abbrev Performs (db : String) (p : Access Unit) (paths : List Path)
    (f : RuleTable → RuleTable) : Prop :=
  Access.Refines (fun r written t => StoredIn db r written [] t) p paths f

end RuleTable

end ClusterCatalog
