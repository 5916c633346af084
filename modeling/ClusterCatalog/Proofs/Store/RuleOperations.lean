import ClusterCatalog.Proofs.Catalog.RuleItems
import ClusterCatalog.Proofs.Store.RuleTable

/-!
# Operations on the rules of a database

Configurations of rules are written and committed, some of their items or whole rules are removed
(`RuleOperation`). Carried out one after the other on an empty repository, each operation ends well, and
after each of them the rules that are loaded are those of the table that the operations have made so
far (`RuleOperation.loads_table`).

The conditions are about names and values, and about the numbers of revisions:

* rules and items have names, and no rule is stored under the name of the single-table rule;
* a value is read back from its text as an equal one (`Codec.ReadsBack`);
* no item is written to more often than there are numbers.

One step is `RuleOperation.refines_access`. Loading is `RuleTable.StoredIn.reads_loadRules`: items are
listed in the order of their names and read back one by one.
-/

namespace ClusterCatalog

open Plan Repository

/-! ### What can be stored -/

/-- **A name of a rule of items**; the single-table rule has another one. -/
def Path.IsRuleName (name : String) : Prop := IsName name ∧ name ≠ SingleRule.ruleName

instance (name : String) : Decidable (Path.IsRuleName name) := inferInstanceAs (Decidable (_ ∧ _))

namespace NamedRule

/-- **A configuration has names** for its rule and for its items. -/
structure HasNames (x : NamedRule) : Prop where
  rule : Path.IsRuleName x.name
  items : ∀ e ∈ x.items.entries, Path.IsName e.1

instance (x : NamedRule) : Decidable x.HasNames :=
  decidable_of_iff (Path.IsRuleName x.name ∧ ∀ e ∈ x.items.entries, Path.IsName e.1)
    ⟨fun h => ⟨h.1, h.2⟩, fun h => ⟨h.rule, h.items⟩⟩

/-- **A configuration can be stored**: it has names, and its values are read back. -/
structure Storable (x : NamedRule) : Prop extends HasNames x where
  values : ∀ e ∈ x.items.entries, Codec.ReadsBack e.2

instance (x : NamedRule) : Decidable x.Storable :=
  decidable_of_iff (x.HasNames ∧ ∀ e ∈ x.items.entries, Codec.ReadsBack e.2)
    ⟨fun h => ⟨h.1, h.2⟩, fun h => ⟨h.toHasNames, h.values⟩⟩

theorem Storable.of_get? {x : NamedRule} (h : x.Storable) {item : String} {v : Value}
    (hv : x.items.get? item = some v) : Path.IsName item ∧ Codec.ReadsBack v := by
  have he := x.items.get?_eq_some_iff.1 hv
  exact ⟨h.items (item, v) he, h.values (item, v) he⟩

end NamedRule

namespace RuleTable

variable {t : RuleTable} {db rule : String} {r : Repository} {written : List Path}

/-- **All rules of a table can be stored.** -/
def Storable (t : RuleTable) : Prop :=
  ∀ rule items, t.get? rule = some items → (NamedRule.mk rule items).Storable

theorem storable_empty : Storable ∅ := fun _ _ h => by cases h

/-- The items of a rule are replaced. -/
theorem Storable.insert (h : t.Storable) {items : SortedMap Value} (hrule : Path.IsRuleName rule)
    (hitems : ∀ item v, items.get? item = some v → Path.IsName item ∧ Codec.ReadsBack v) :
    Storable (SortedMap.insert t rule items) := by
  intro rule' items' hget
  rw [SortedMap.get?_insert] at hget
  split at hget
  · rename_i heq
    subst heq
    obtain rfl := Option.some.inj hget
    have hentry : ∀ e ∈ items.entries, Path.IsName e.1 ∧ Codec.ReadsBack e.2 := fun e he =>
      hitems e.1 e.2 (items.get?_eq_some_iff.2 he)
    exact ⟨⟨hrule, fun e he => (hentry e he).1⟩, fun e he => (hentry e he).2⟩
  · exact h rule' items' hget

/-- A storable rule may be put into a storable table. -/
theorem Storable.put (h : t.Storable) {x : NamedRule} (hx : x.Storable) : (t.put x).Storable := by
  unfold RuleTable.put
  split
  · exact h
  · refine h.insert hx.rule fun item v hv => ?_
    -- an item is one of the configuration, or the rule has had it before
    rw [SortedMap.get?_overlay, Option.or_eq_some_iff] at hv
    rcases hv with hv | ⟨-, hv⟩
    · exact hx.of_get? hv
    · cases hget : t.get? x.name with
      | none => rw [hget] at hv; cases hv
      | some items => rw [hget] at hv; exact (h _ _ hget).of_get? hv

/-- The items of a rule may be taken out of a storable table. -/
theorem Storable.takeOut (h : t.Storable) {x : NamedRule} (hx : Path.IsRuleName x.name) :
    (t.takeOut x).Storable := by
  unfold RuleTable.takeOut
  split
  · rename_i items hget
    refine h.insert hx fun item v hv => ?_
    rw [SortedMap.get?_filter, Option.filter_eq_some_iff] at hv
    exact (h _ _ hget).of_get? hv.1
  · exact h

theorem Storable.erase (h : t.Storable) (rule : String) : Storable (SortedMap.erase t rule) := by
  intro rule' items hget
  rw [SortedMap.get?_erase] at hget
  split at hget
  · cases hget
  · exact h rule' items hget

/-! ### Loading -/

/-- **The items of a rule are loaded** with their texts. -/
theorem StoredIn.reads_loadRuleItems (h : StoredIn db r written [] t) (ht : t.Storable)
    {items : SortedMap Value} (hget : t.get? rule = some items) :
    Access.Reads r (Stored.loadRuleItems db rule) (.ok (items.map fun _ v => Codec.write v)) := by
  have hstorable := ht rule items hget
  have hrule := hstorable.rule.1
  have hnames : ∀ item, items.contains item = true → Path.IsName item := fun item hcontains => by
    obtain ⟨v, hv⟩ := SortedMap.contains_iff.1 hcontains
    exact (hstorable.of_get? hv).1
  have hshows : ∀ item, Path.IsName item →
      Item.ShowsAt r (Path.databaseRuleItem db rule item) ((items.get? item).map Codec.write) := by
    intro item hitem
    have hqueued := h.batch.queued ⟨⟨rule, item⟩, hrule, hitem⟩
    simp only [RuleTable.text, hget] at hqueued
    exact hqueued.shows rfl
  -- the listing is that of the items of the table, each of which shows its text
  refine Stored.reads_listing (Path.below_child_append hrule) (fun item => ?_) fun item text htext => ?_
  · rw [SortedMap.contains_map]
    exact Item.mem_listing_iff hnames hshows item
  · rw [SortedMap.get?_map] at htext
    obtain ⟨v, hv, rfl⟩ := Option.map_eq_some_iff.1 htext
    have hat := hshows item (hnames item (SortedMap.contains_iff.2 ⟨v, hv⟩))
    rw [hv] at hat
    have hactive : Access.Reads r (Item.activeValue (Path.databaseRuleItem db rule item))
        (.ok (some (Codec.write v))) := hat.value ▸ Item.reads_activeValue _
    exact hactive.bind_ok (Access.reads_pure _)

end RuleTable

namespace RuleTable

variable {t : RuleTable} {db : String} {r : Repository} {written : List Path}

/-- **The rules are loaded** as those of the table, in its order. -/
theorem StoredIn.reads_loadRules (h : StoredIn db r written [] t) (ht : t.Storable) :
    ∃ rules, Access.Reads r (Stored.loadRules db) (.ok rules) ∧ (rules == t.rules) = true := by
  have hmem : ∀ rule, Path.IsName rule ∧ (r.query (Path.databaseRule db rule)).isSome
      ↔ t.contains rule = true := by
    intro rule
    refine ⟨fun hnode => (h.rule rule hnode.1).1 hnode.2, fun hcontains => ?_⟩
    obtain ⟨items, hitems⟩ := SortedMap.contains_iff.1 hcontains
    have hname := (ht rule items hitems).rule.1
    exact ⟨hname, (h.rule rule hname).2 hcontains⟩
  -- the children of the node of rules are the keys of the table, in the same order
  have hkeys : r.children (Path.databaseRules db) = t.keys :=
    children_eq_keys (Path.below_child_append (by decide)) hmem
  let loaded (rule : String) : Rule :=
    .named ⟨rule, ((t.get? rule).getD ∅).map fun _ v => Codec.readBack v⟩
  refine ⟨t.keys.map loaded, ?_, ?_⟩
  · refine hkeys ▸ (Access.reads_children _).bind_ok (Access.Reads.mapM_of_mem fun rule hrule => ?_)
    rw [hkeys, SortedMap.mem_keys_iff] at hrule
    obtain ⟨items, hitems⟩ := SortedMap.contains_iff.1 hrule
    refine (h.reads_loadRuleItems ht hitems).bind_ok ?_
    rw [Rule.ofItems_map (ht rule items hitems).rule.2 (ht rule items hitems).values]
    show Access.Reads r (pure _) (.ok (loaded rule))
    simp only [loaded, hitems, Option.getD_some]
    exact Access.reads_pure _
  · -- rule by rule, what is loaded is what the table has
    have hrule : ∀ e ∈ t.entries, (loaded e.1 == .named ⟨e.1, e.2⟩) = true := fun e he => by
      have hget := t.get?_eq_some_iff.2 he
      have hloaded : loaded e.1 = .named ⟨e.1, e.2.map fun _ v => Codec.readBack v⟩ := by
        simp only [loaded, hget, Option.getD_some]
      rw [hloaded]
      exact Rule.named_readBack_beq (ht _ _ hget).values
    have hrules := map_beq_map hrule
    rw [SortedMap.keys, List.map_map]
    exact hrules

end RuleTable

/-! ### Operations -/

/-- **An operation on the rules of a database.** -/
inductive RuleOperation where
  /-- Configurations are written, and all switches of the batch are committed. -/
  | persist (rules : List NamedRule)
  /-- The items of configurations are removed. -/
  | deleteItems (rules : List NamedRule)
  /-- A whole rule is removed. -/
  | delete (rule : String)

namespace RuleOperation

variable {db : String} {t : RuleTable} {r : Repository}

/-- The calls of an operation. -/
def access (db : String) : RuleOperation → Access Unit
  | persist rules => Stored.persistRules db (rules.map .named) >>= Item.commit
  | deleteItems rules => Stored.deleteRuleItems db (rules.map .named)
  | delete rule => Stored.deleteRule db rule

/-- **What an operation does to a table.** -/
def update : RuleOperation → RuleTable → RuleTable
  | persist rules, t => rules.foldl RuleTable.put t
  | deleteItems rules, t => rules.foldl RuleTable.takeOut t
  | delete rule, t => SortedMap.erase t rule

/-- The items of configurations, one after the other. -/
def writes (rules : List NamedRule) : List (RuleKey × Value) :=
  rules.flatMap fun x => x.items.entries.map fun e => (⟨x.name, e.1⟩, e.2)

/-- The items that an operation writes to, each as often as it is written to. -/
def written (db : String) : RuleOperation → List Path
  | persist rules => (writes rules).map fun w => w.1.path db
  | _ => []

/-- **An operation can be carried out**: its configurations can be stored, or what it removes has
names. -/
def Storable : RuleOperation → Prop
  | persist rules => ∀ x ∈ rules, x.Storable
  | deleteItems rules => ∀ x ∈ rules, x.HasNames
  | delete rule => Path.IsRuleName rule

instance : DecidablePred Storable
  | persist _ => inferInstanceAs (Decidable (∀ _ ∈ _, _))
  | deleteItems _ => inferInstanceAs (Decidable (∀ _ ∈ _, _))
  | delete _ => inferInstanceAs (Decidable (Path.IsRuleName _))

/-- An operation leaves a table with rules that can be stored. -/
theorem storable_update {op : RuleOperation} (hop : op.Storable) (ht : t.Storable) :
    (op.update t).Storable := by
  cases op with
  | persist rules => exact List.foldlRecOn rules _ ht fun _ h x hx => h.put (hop x hx)
  | deleteItems rules => exact List.foldlRecOn rules _ ht fun _ h x hx => h.takeOut (hop x hx).rule
  | delete rule => exact ht.erase rule

/-! ### One operation -/

/-- Writing configurations is staging their items one after the other. -/
theorem persistRules_eq (db : String) (rules : List NamedRule) :
    Stored.persistRules db (rules.map .named)
      = (writes rules).mapM fun w => Item.stage (w.1.path db) (Codec.write w.2) := by
  unfold Stored.persistRules writes
  induction rules with
  | nil => rfl
  | cons x rules ih =>
    rw [List.flatMap_cons, List.mapM_append, ← ih, List.map_cons, List.mapM_cons]
    simp only [bind_assoc, pure_bind, List.flatten_cons]
    show ((x.items.entries.map fun e => (e.1, Codec.write e.2)).mapM _ >>= _) = _
    simp only [List.mapM_map]
    rfl

theorem foldl_writes (rules : List NamedRule) (t : RuleTable) :
    (writes rules).foldl (fun t w => t.putItem w.1 w.2) t = rules.foldl RuleTable.put t := by
  unfold writes
  rw [List.foldl_flatMap]
  refine List.foldl_ext _ _ _ fun t x _ => ?_
  rw [List.foldl_map, RuleTable.put_eq_foldl]

/-- **Writing rules** puts their items into the table. -/
theorem refines_persist {rules : List NamedRule} (h : ∀ x ∈ rules, x.HasNames) :
    RuleTable.Performs db (access db (persist rules)) (written db (persist rules))
      (update (persist rules)) := by
  intro r written t hr hcount
  have hnamed : ∀ w ∈ writes rules, w.1.Named := by
    intro w hw
    obtain ⟨x, hx, hw⟩ := List.mem_flatMap.1 hw
    obtain ⟨e, he, rfl⟩ := List.mem_map.1 hw
    exact ⟨(h x hx).rule.1, (h x hx).items e he⟩
  show (Stored.persistRules db (rules.map .named) >>= Item.commit).Keeps _ _ _
  rw [persistRules_eq]
  -- all switches of the batch are handed out, and then they are committed
  refine (hr.keeps_mapM_stage hnamed hcount).bind (fun switches s' h' => ?_)
    fun _ _ ⟨_, h, _⟩ => by cases h
  obtain ⟨_, hswitches, h'⟩ := h'
  cases hswitches
  rw [foldl_writes] at h'
  exact h'.keeps_commit

/-- **Removing an item** takes it out of its rule. -/
theorem refines_deleteItem {k : RuleKey} (hk : k.Named) :
    RuleTable.Performs db (Access.delete (k.path db)) [] (·.eraseItem k) := by
  intro r written t hr _
  refine Access.keeps_delete.2 ⟨trivial, ⟨rfl, ?_⟩, fun _ he => he.elim⟩
  rw [List.append_nil]
  refine hr.delete hk.2 (fun j hj => ?_) fun rule hrule => ?_
  · rw [RuleTable.text_eraseItem]
    by_cases heq : j = k
    · exact .inr ⟨.inl (by rw [heq]; rfl), if_pos heq⟩
    · exact .inl ⟨RuleKey.apart_path hk hj heq, if_neg heq⟩
  · rw [RuleTable.contains_eraseItem]
    refine (and_iff_left ?_).symm
    -- an item is below its rule, and other rules are apart from it
    by_cases heq : rule = k.rule
    · subst heq
      exact (k.rule_isAbove_path db).not_covers
    · have hapart := RuleKey.apart_rule db hk.1 hrule (Ne.symm heq)
      exact (hapart.mono (k.rule_isAbove_path db).covers (.refl _)).1

/-- **Removing items** takes them out of the table. -/
theorem refines_deleteItems {rules : List NamedRule} (h : ∀ x ∈ rules, x.HasNames) :
    RuleTable.Performs db (access db (deleteItems rules)) [] (update (deleteItems rules)) := by
  have hrounds : ∀ x ∈ rules, RuleTable.Performs db
      ((Rule.named x).items.forM fun item => Access.delete (Path.databaseRuleItem db x.name item.1)) []
      (·.takeOut x) := by
    intro x hx
    have hloop : RuleTable.Performs db
        (x.items.keys.forM fun item => Access.delete (RuleKey.path db ⟨x.name, item⟩)) []
        fun t => x.items.keys.foldl (fun t item => RuleTable.eraseItem t ⟨x.name, item⟩) t := by
      refine Access.Refines.forM_nil fun item hitem => refines_deleteItem ⟨(h x hx).rule.1, ?_⟩
      obtain ⟨e, he, rfl⟩ := List.mem_map.1 hitem
      exact (h x hx).items e he
    -- the loop is over the items with their texts, of which it needs the names only
    have hkeys : (Rule.named x).items.forM
        (fun item => Access.delete (Path.databaseRuleItem db x.name item.1))
        = x.items.keys.forM fun item => Access.delete (RuleKey.path db ⟨x.name, item⟩) := by
      have htexts := List.forM_map (l := x.items.entries) (g := fun e => (e.1, Codec.write e.2))
        (f := fun item => Access.delete (Path.databaseRuleItem db x.name item.1))
      have hnames := List.forM_map (l := x.items.entries) (g := fun e => e.1)
        (f := fun item => Access.delete (RuleKey.path db ⟨x.name, item⟩))
      exact htexts.trans hnames.symm
    rw [hkeys, show (fun t : RuleTable => t.takeOut x) = _ from funext fun t => t.takeOut_eq_foldl x]
    exact hloop
  have hloop := Access.Refines.forM_nil hrounds
  have hrules : access db (deleteItems rules) = rules.forM fun x =>
      (Rule.named x).items.forM fun item => Access.delete (Path.databaseRuleItem db x.name item.1) :=
    List.forM_map
  exact hrules ▸ hloop

/-- **Removing a rule** removes all of its items. -/
theorem refines_delete {rule : String} (h : Path.IsName rule) :
    RuleTable.Performs db (access db (delete rule)) [] (update (delete rule)) := by
  intro r written t hr _
  refine Access.keeps_delete.2 ⟨trivial, ⟨rfl, ?_⟩, fun _ he => he.elim⟩
  rw [List.append_nil]
  refine hr.delete h (fun k hk => ?_) fun rule' hrule' => ?_
  · rw [show update (delete rule) t = SortedMap.erase t rule from rfl, RuleTable.text_erase]
    -- the items of the rule go with its node, and those of other rules are apart from it
    by_cases heq : k.rule = rule
    · subst heq
      exact .inr ⟨(k.rule_isAbove_path db).covers, if_pos rfl⟩
    · have hapart := RuleKey.apart_rule db h hk.1 (Ne.symm heq)
      exact .inl ⟨hapart.mono (.refl _) (k.rule_isAbove_path db).covers, if_neg heq⟩
  · refine (RuleTable.contains_erase rule rule').trans (and_congr_right fun _ => ?_)
    constructor
    · exact fun hne => (RuleKey.apart_rule db h hrule' (Ne.symm hne)).1
    · rintro hcovers rfl
      exact hcovers (.refl _)

/-- **An operation refines its change** of the table. -/
theorem refines_access {op : RuleOperation} (h : op.Storable) :
    RuleTable.Performs db (op.access db) (op.written db) op.update := by
  cases op with
  | persist rules => exact refines_persist fun x hx => (h x hx).toHasNames
  | deleteItems rules => exact refines_deleteItems h
  | delete rule => exact refines_delete h.1

/-! ### Runs -/

/-- Carries out one operation after the other, as long as each ends well. -/
def runAll (db : String) (ops : List RuleOperation) (r : Repository) : Except Failure Repository :=
  ops.foldlM (fun r op =>
    match (op.access db).run Repository.answer r with
    | (.ok (), r') => .ok r'
    | (.error f, _) => .error f) r

/-- What operations make of the empty table. -/
def table (ops : List RuleOperation) : RuleTable := ops.foldl (fun t op => op.update t) ∅

/-- **A run** ends well, and the repository stands for the table. -/
theorem exists_runAll {ops : List RuleOperation} {paths : List Path}
    (hops : ∀ op ∈ ops, op.Storable)
    (hcount : ∀ path, (paths ++ ops.flatMap (written db)).count path ≤ maxRevision)
    (hr : RuleTable.StoredIn db r paths [] t) (ht : t.Storable) :
    ∃ r', runAll db ops r = .ok r'
      ∧ RuleTable.StoredIn db r' (paths ++ ops.flatMap (written db)) []
        (ops.foldl (fun t op => op.update t) t)
      ∧ (ops.foldl (fun t op => op.update t) t).Storable := by
  induction ops generalizing r paths t with
  | nil => exact ⟨r, rfl, by rw [List.flatMap_nil, List.append_nil]; exact hr, ht⟩
  | cons op ops ih =>
    rw [List.forall_mem_cons] at hops
    rw [List.flatMap_cons, ← List.append_assoc] at hcount ⊢
    have hpart : (paths ++ op.written db).Sublist
        (paths ++ op.written db ++ ops.flatMap (written db)) :=
      List.sublist_append_left _ _
    have hone := Access.keeps_run_iff.1 (refines_access hops.1 r paths t hr fun path =>
      Nat.le_trans (hpart.count_le path) (hcount path))
    -- the first operation ends well, and the others go on from there
    obtain ⟨r', hrun, hr', ht'⟩ := ih hops.2 hcount hone.2 (storable_update hops.1 ht)
    refine ⟨r', ?_, hr', ht'⟩
    rw [runAll, List.foldlM_cons]
    generalize (op.access db).run answer r = ran at hone hrun
    obtain ⟨result, r₁⟩ := ran
    obtain rfl : result = .ok () := hone.1
    exact hrun

/-- **The stored rules of a database refine a nested map.** From an empty repository each operation ends
well, and after each of them what is loaded are the configurations of the rules in the table that the
operations so far have made, in ascending order of the names, provided that what is written and removed
has names, that values are read back, and that no item is written to 2^32 times. -/
theorem loads_table (db : String) (ops : List RuleOperation) (r : Repository) (hempty : r.nodes = ∅)
    (hops : ∀ op ∈ ops, op.Storable)
    (hcount : ∀ path, (ops.flatMap (written db)).count path < 2 ^ 32) :
    ∀ done, done <+: ops → ∃ r', runAll db done r = .ok r'
      ∧ ∃ rules, (Stored.loadRules db).run Repository.answer r' = (.ok rules, r')
        ∧ (rules == (table done).rules) = true := by
  intro done hdone
  -- what has been done is a part of all operations, so its writes fit as well
  have hcountDone := Access.count_le_of_prefix hdone hcount
  obtain ⟨r', hrun, hr', ht⟩ := exists_runAll (fun op hop => hops op (hdone.mem hop)) hcountDone
    (RuleTable.storedIn_empty hempty) RuleTable.storable_empty
  obtain ⟨rules, hrules, heq⟩ := hr'.reads_loadRules ht
  exact ⟨r', hrun, rules, hrules.run, heq⟩

/-- A rule is written twice in one batch, loses all items and gets one back; another one, whose name
continues its own, comes and goes. -/
def rewriting : List RuleOperation :=
  [.persist [⟨"r", .ofList [("a", .integer 1), ("b", .null)]⟩, ⟨"r1", .ofList [("a", .text "/")]⟩,
      ⟨"r", .ofList [("a", .array [.bool true])]⟩, ⟨"s", ∅⟩],
    .deleteItems [⟨"r", .ofList [("a", .null), ("b", .null)]⟩, ⟨"s", .ofList [("a", .null)]⟩],
    .persist [⟨"r", .ofList [("a", .object [("k", .text "é")])]⟩, ⟨"r2", .ofList [("c", .bool false)]⟩],
    .delete "r1",
    .deleteItems [⟨"r2", .ofList [("c", .bool false)]⟩]]

theorem loads_table_rewriting :
    ∃ r', runAll "d" rewriting (.memory ⟨∅⟩) = .ok r'
      ∧ ∃ rules, (Stored.loadRules "d").run Repository.answer r' = (.ok rules, r')
        ∧ (rules == [.named ⟨"r", .ofList [("a", .object [("k", .text "é")])]⟩,
          .named ⟨"r2", ∅⟩]) = true := by
  refine loads_table "d" rewriting (.memory ⟨∅⟩) rfl (by decide +kernel) (fun path => ?_) rewriting
    List.prefix_rfl
  exact Nat.lt_of_le_of_lt List.count_le_length (by decide)

end RuleOperation

end ClusterCatalog
