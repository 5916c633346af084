import ClusterCatalog.Cluster.RuleChange
import ClusterCatalog.Proofs.Catalog.RuleItems
import ClusterCatalog.Proofs.Simulation.Stage
import ClusterCatalog.Proofs.Store.RuleTable
import ClusterCatalog.Proofs.Store.Texts
import ClusterCatalog.Proofs.Store.Writers

/-!
# Altering the rule of undistributed tables

The rule is stored in two items. A configuration that names a default data source writes both of them;
one that names none writes the tables only, and an item that is there from an earlier configuration
stays. So what is loaded is not always the configuration that was written last: its tables are, but
where it leaves the default data source open, one that is stored already is loaded with them
(`SingleRule.completedBy`).

* `SingleRule.storedUnit` — the default data source that is stored for a database.
* `SingleRule.StoredIn` — what calls leave of the rule, wherever they end: it is the only rule, and its
  default data source is one of those that were given. `SingleRule.StoredIn.step` says what one call
  makes of this, `SingleRule.StoredIn.after` what many calls do, for whichever databases they are made.
* `SingleRule.loaded_iff` — when the configuration that was written last is the one that is loaded.
-/

namespace ClusterCatalog

open Plan Repository

namespace SingleRule

/-! ### The items of the rule -/

/-- **A configuration completed** by a default data source, if it names none. -/
def completedBy (c : SingleRule) (unit : Option String) : SingleRule :=
  ⟨c.tables, c.defaultDataSource.or unit⟩

/-- The place of the tables. -/
def tablesPath (db : String) : Path := Path.databaseRuleItem db ruleName Rule.tablesItem

/-- The place of the default data source. -/
def unitPath (db : String) : Path := Path.databaseRuleItem db ruleName Rule.defaultDataSourceItem

variable {c x : SingleRule} {db item : String} {unit : Option String}

/-- A configuration is complete as it is if it names a default data source or there is none. -/
theorem completedBy_eq_self_iff :
    c.completedBy unit = c ↔ c.defaultDataSource ≠ none ∨ unit = none := by
  obtain ⟨tables, named⟩ := c
  cases named <;> simp [completedBy]

/-- The item of the tables can stand in a path. -/
theorem isName_tablesItem : Path.IsName Rule.tablesItem := by decide

/-- So can the item of the default data source. -/
theorem isName_defaultDataSourceItem : Path.IsName Rule.defaultDataSourceItem := by decide

/-- The name of the rule can stand in a path. -/
theorem isName_ruleName : Path.IsName ruleName := by decide

/-! ### Writing the items -/

/-- The items of a configuration, where they are stored. -/
def storedItems (db : String) (c : SingleRule) : List (Path × String) :=
  (Rule.single c).items.map fun e => (Path.databaseRuleItem db ruleName e.1, e.2)

/-- The tables are always written; the default data source is written if there is one. -/
theorem storedItems_eq (db : String) (c : SingleRule) :
    c.storedItems db = (tablesPath db, Codec.write c.tables)
      :: (c.defaultDataSource.map fun unit => (unitPath db, Codec.write unit)).toList := by
  obtain ⟨tables, unit⟩ := c
  cases unit <;> rfl

/-- The items are all below the rule. -/
theorem exists_item_of_mem {e : Path × String} (he : e ∈ c.storedItems db) :
    ∃ item, (item = Rule.tablesItem ∨ item = Rule.defaultDataSourceItem)
      ∧ e.1 = Path.databaseRuleItem db ruleName item := by
  rw [storedItems_eq, List.mem_cons, Option.mem_toList, Option.map_eq_some_iff] at he
  rcases he with rfl | ⟨unit, -, rfl⟩
  · exact ⟨_, .inl rfl, rfl⟩
  · exact ⟨_, .inr rfl, rfl⟩

/-- The two items of the rule can stand in a path. -/
theorem isName_of_eq_or (h : item = Rule.tablesItem ∨ item = Rule.defaultDataSourceItem) :
    Path.IsName item := by
  rcases h with rfl | rfl
  · exact isName_tablesItem
  · exact isName_defaultDataSourceItem

/-- What is written for the default data source is the one that is named. -/
theorem mem_storedItems_unit_iff {v : String} :
    (unitPath db, v) ∈ c.storedItems db ↔ ∃ unit, c.defaultDataSource = some unit ∧ v = Codec.write unit := by
  have hne : unitPath db ≠ tablesPath db := fun h =>
    tablesItem_ne (Path.child_inj isName_defaultDataSourceItem.2 isName_tablesItem.2 h).2.symm
  rw [storedItems_eq, List.mem_cons, Option.mem_toList, Option.map_eq_some_iff]
  constructor
  · rintro (h | ⟨unit, hunit, h⟩)
    · exact absurd (Prod.mk.inj h).1 hne
    · exact ⟨unit, hunit, (Prod.mk.inj h).2.symm⟩
  · rintro ⟨unit, hunit, rfl⟩
    exact .inr ⟨unit, hunit, rfl⟩

/-- Where a configuration names no default data source, its items are apart from it. -/
theorem apart_unitPath (h : c.defaultDataSource = none) :
    ∀ e ∈ c.storedItems db, e.1.Apart (unitPath db) := by
  intro e he
  rw [storedItems_eq, h, Option.map_none, Option.toList_none, List.mem_singleton] at he
  subst he
  exact Path.apart_child isName_tablesItem.2 isName_defaultDataSourceItem.2 tablesItem_ne

/-- No item of a configuration is at or below another rule. -/
theorem apart_databaseRule {name : String} (hname : Path.IsName name) (hne : name ≠ ruleName) :
    ∀ e ∈ c.storedItems db, e.1.Apart (Path.databaseRule db name) := by
  intro e he
  obtain ⟨item, -, hpath⟩ := exists_item_of_mem he
  rw [hpath]
  exact (RuleKey.apart_rule db isName_ruleName hname (Ne.symm hne)).mono
    (Path.isAbove_child _ _).covers (.refl _)

/-- No item of a configuration is at or below another item. -/
theorem apart_databaseRuleItem (hitem : Path.IsName item)
    (hother : ¬ (item = Rule.tablesItem ∨ item = Rule.defaultDataSourceItem)) :
    ∀ e ∈ c.storedItems db, e.1.Apart (Path.databaseRuleItem db ruleName item) := by
  intro e he
  obtain ⟨item', hitem', hpath⟩ := exists_item_of_mem he
  rw [hpath]
  refine Path.apart_child (isName_of_eq_or hitem').2 hitem.2 ?_
  rintro rfl
  exact hother hitem'

/-- The items of a configuration lie apart. -/
theorem apart_storedItems : (c.storedItems db).Pairwise fun a b => a.1.Apart b.1 := by
  have hnames : ∀ e ∈ (Rule.single c).items, Path.IsName e.1 := fun e he => by
    obtain ⟨tables, unit⟩ := c
    cases unit with
    | none => exact isName_of_eq_or (.inl (congrArg Prod.fst (List.mem_singleton.1 he)))
    | some unit =>
      rcases List.mem_cons.1 he with rfl | he
      · exact isName_tablesItem
      · exact isName_of_eq_or (.inr (congrArg Prod.fst (List.mem_singleton.1 he)))
  refine List.pairwise_map.2 ((Rule.single c).pairwise_items.imp_of_mem fun {a b} ha hb hne => ?_)
  exact Path.apart_child (hnames a ha).2 (hnames b hb).2 hne

/-- Storing a configuration is replacing its items. -/
theorem persistRules_eq (db : String) (c : SingleRule) :
    (Stored.persistRules db [.single c] >>= Item.commit)
      = (c.storedItems db).mapM (fun e => Item.stage e.1 e.2) >>= Item.commit := by
  rw [Stored.persistRules_singleton, storedItems, List.mapM_map]
  rfl

/-- **Storing a configuration** leaves alone what is apart from its items; if it succeeds, they show
their texts. -/
theorem keeps_persist (db : String) (c : SingleRule) (r : Repository) :
    (Stored.persistRules db [.single c] >>= Item.commit).Keeps unsure
      (fun result r' => Item.SameApart (c.storedItems db) r r'
        ∧ (result = .ok () → ∀ e ∈ c.storedItems db, Item.Shows r' e.1 e.2)) r := by
  rw [persistRules_eq]
  refine Item.keeps_replace (fun e he => ?_) apart_storedItems r
  obtain ⟨item, -, hpath⟩ := exists_item_of_mem he
  rw [hpath]
  exact Path.child_ne_empty _ _

/-! ### The stored rule -/

/-- **The default data source that is stored** for a database, if there is one. -/
def storedUnit (db : String) (r : Repository) : Option String :=
  match Item.value r (unitPath db) with
  | .ok (some text) => Codec.read? text
  | _ => none

variable {r r' : Repository} {given : String → Prop}

/-- The default data source that is stored is read from the nodes of its item. -/
theorem storedUnit_congr (h : SameAt (unitPath db) r r') : storedUnit db r' = storedUnit db r := by
  rw [storedUnit, Item.value_congr h, ← storedUnit]

/-- What the item shows is the default data source that is stored. -/
theorem storedUnit_of_shows {unit : String} (h : Item.Shows r (unitPath db) (Codec.write unit)) :
    storedUnit db r = some unit := by
  rw [storedUnit, h.value]
  exact read?_write_unit unit

/-- **What is stored of the rule of a database**: there is no other rule, the rule has no other items,
and its default data source is one of those that were given. -/
structure StoredIn (db : String) (given : String → Prop) (r : Repository) : Prop where
  rooted : Rooted r
  rules : ∀ name, Path.IsName name → (r.query (Path.databaseRule db name)).isSome → name = ruleName
  items : ∀ item, Path.IsName item → (r.query (Path.databaseRuleItem db ruleName item)).isSome →
    item = Rule.tablesItem ∨ item = Rule.defaultDataSourceItem
  unit : Item.Bears (fun text => ∃ unit, given unit ∧ text = Codec.write unit) r (unitPath db)

namespace StoredIn

/-- An empty repository has no rule, so nothing is wrong with it. -/
theorem of_nodes_eq_empty (h : r.nodes = ∅) : StoredIn db given r where
  rooted := rooted_of_nodes_eq_empty h
  rules name _ hnode := by
    rw [query_of_nodes_eq_empty h] at hnode
    cases hnode
  items item _ hnode := by
    rw [query_of_nodes_eq_empty h] at hnode
    cases hnode
  unit := Item.bears_of_none fun q _ => query_of_nodes_eq_empty h q

/-- More may have been given than was. -/
theorem mono {given' : String → Prop} (h : StoredIn db given r)
    (hgiven : ∀ unit, given unit → given' unit) : StoredIn db given' r :=
  ⟨h.rooted, h.rules, h.items,
    h.unit.mono fun _ ⟨unit, hunit, htext⟩ => ⟨unit, hgiven unit hunit, htext⟩⟩

/-- What is stored for a database does not depend on others. -/
theorem congr (h : StoredIn db given r) (hrooted : Rooted r')
    (hsame : SameAt (Path.databaseRules db) r r') : StoredIn db given r' where
  rooted := hrooted
  -- the rule, its items and its default data source all stand below the rules of the database
  rules name hname hnode := by
    have hcovers : (Path.databaseRules db).Covers (Path.databaseRule db name) :=
      (Path.isAbove_child _ _).covers
    rw [hsame _ hcovers] at hnode
    exact h.rules name hname hnode
  items item hitem hnode := by
    have hcovers : (Path.databaseRules db).Covers (Path.databaseRuleItem db ruleName item) :=
      (Path.isAbove_child _ _).covers.trans (Path.isAbove_child _ _).covers
    rw [hsame _ hcovers] at hnode
    exact h.items item hitem hnode
  unit := h.unit.congr fun q hq =>
    hsame q ((Path.isAbove_child _ _).covers.trans ((Path.isAbove_child _ _).covers.trans hq))

/-- **The item of the default data source** shows the one that is stored, which was given. -/
theorem value_eq (h : StoredIn db given r) :
    Item.value r (unitPath db) = .ok ((storedUnit db r).map Codec.write)
      ∧ ∀ unit, storedUnit db r = some unit → given unit := by
  obtain ⟨found, hvalue, hgiven⟩ := h.unit.value
  have hstored : storedUnit db r = found.bind Codec.read? := by
    rw [storedUnit, hvalue]
    cases found <;> rfl
  rw [hvalue, hstored]
  -- the item shows a text that was given, and every such text is read back
  cases found with
  | none => exact ⟨rfl, fun _ h => by cases h⟩
  | some text =>
    obtain ⟨unit, hunit, rfl⟩ := hgiven text rfl
    rw [Option.bind_some, read?_write_unit]
    exact ⟨rfl, fun unit' h => Option.some.inj h ▸ hunit⟩

/-- **A configuration is stored**, or its storing ends early. The default data source that it names is
added to those that were given; if all goes well, it is the stored one, and without one that stays. -/
theorem keeps_replace (h : StoredIn db given r) (c : SingleRule) :
    (Stored.persistRules db [.single c] >>= Item.commit).Keeps unsure (fun result r' =>
      StoredIn db (fun unit => given unit ∨ c.defaultDataSource = some unit) r'
        ∧ (result = .ok () → Item.Shows r' (tablesPath db) (Codec.write c.tables)
          ∧ storedUnit db r' = c.defaultDataSource.or (storedUnit db r))) r := by
  have hunit : ∀ e ∈ c.storedItems db, e.1.Apart (unitPath db) ∨ e.1 = unitPath db := by
    intro e he
    obtain ⟨item, rfl | rfl, hpath⟩ := exists_item_of_mem he
    · rw [hpath]
      exact .inl (Path.apart_child isName_tablesItem.2 isName_defaultDataSourceItem.2 tablesItem_ne)
    · exact .inr hpath
  have hbears := h.unit.keeps_replace hunit
  rw [← persistRules_eq] at hbears
  refine (((keeps_persist db c r).and hbears).and (keeps_rooted _ h.rooted)).mono
    fun result r' hr' => ?_
  obtain ⟨⟨⟨hsame, hshows⟩, hbears⟩, hrooted⟩ := hr'
  refine ⟨⟨hrooted, fun name hname hnode => ?_, fun item hitem hnode => ?_, ?_⟩, fun hresult => ?_⟩
  -- neither another rule nor another item of the rule is written
  · by_contra hne
    rw [hsame _ (apart_databaseRule hname hne) _ (.refl _)] at hnode
    exact hne (h.rules name hname hnode)
  · by_contra hother
    rw [hsame _ (apart_databaseRuleItem hitem hother) _ (.refl _)] at hnode
    exact hother (h.items item hitem hnode)
  · -- a text of the item was there before, or it is that of the configuration
    refine hbears.mono fun v hv => ?_
    rcases hv with ⟨unit, hunit, rfl⟩ | hmem
    · exact ⟨unit, .inl hunit, rfl⟩
    · obtain ⟨unit, hunit, rfl⟩ := mem_storedItems_unit_iff.1 hmem
      exact ⟨unit, .inr hunit, rfl⟩
  · have htables : (tablesPath db, Codec.write c.tables) ∈ c.storedItems db := by
      rw [storedItems_eq]
      exact List.mem_cons_self
    refine ⟨hshows hresult _ htables, ?_⟩
    cases hnamed : c.defaultDataSource with
    | none => exact storedUnit_congr (hsame _ (apart_unitPath hnamed))
    | some unit =>
      exact storedUnit_of_shows
        (hshows hresult _ (mem_storedItems_unit_iff.2 ⟨unit, hnamed, rfl⟩))

/-- Where tables are shown, both items show what a configuration with the stored default data source
has. -/
theorem value_item (h : StoredIn db given r) {tables : List String}
    (htables : Item.Shows r (tablesPath db) (Codec.write tables))
    (hitem : item = Rule.tablesItem ∨ item = Rule.defaultDataSourceItem) :
    Item.value r (Path.databaseRuleItem db ruleName item)
      = .ok ((texts ⟨tables, storedUnit db r⟩).get? item) := by
  rcases hitem with rfl | rfl
  · rw [get?_texts, if_pos rfl]
    exact htables.value
  · rw [get?_texts, if_neg tablesItem_ne.symm, if_pos rfl]
    exact h.value_eq.1

/-- The items are loaded. The one of the default data source may have a node and show nothing. -/
theorem reads_loadRuleItems (h : StoredIn db given r) {tables : List String}
    (htables : Item.Shows r (tablesPath db) (Codec.write tables)) :
    Access.Reads r (Stored.loadRuleItems db ruleName)
      (.ok (texts ⟨tables, storedUnit db r⟩)) := by
  refine Stored.reads_listing_of_nodes (Path.below_child_append (by decide))
    (fun item hcontains => ?_) fun item hitem hnode => ?_
  · -- an item that is loaded is one of the two, and it has a node
    obtain ⟨text, htext⟩ := SortedMap.contains_iff.1 hcontains
    have hitem : item = Rule.tablesItem ∨ item = Rule.defaultDataSourceItem := by
      by_contra hother
      rw [not_or] at hother
      rw [get?_texts, if_neg hother.1, if_neg hother.2] at htext
      cases htext
    have hvalue := (h.value_item htables hitem).trans (congrArg Except.ok htext)
    exact ⟨isName_of_eq_or hitem,
      Item.isSome_query_of_value h.rooted (Path.child_ne_empty _ _) hvalue⟩
  · -- an item that has a node is loaded with what it shows
    have hactive : Access.Reads r (Item.activeValue (Path.databaseRuleItem db ruleName item))
        (.ok ((texts ⟨tables, storedUnit db r⟩).get? item)) :=
      h.value_item htables (h.items item hitem hnode) ▸ Item.reads_activeValue _
    refine hactive.bind_ok ?_
    cases (texts ⟨tables, storedUnit db r⟩).get? item <;> exact Access.reads_pure _

/-- **What is loaded** where tables are shown: these, with the default data source that is stored. -/
theorem reads_loadRules (h : StoredIn db given r) {tables : List String}
    (htables : Item.Shows r (tablesPath db) (Codec.write tables)) :
    Access.Reads r (Stored.loadRules db) (.ok [.single ⟨tables, storedUnit db r⟩]) := by
  have hkeys : r.children (Path.databaseRules db) = [ruleName] := by
    refine children_eq_keys (m := SortedMap.ofList [(ruleName, ())])
      (Path.below_child_append (by decide)) fun name => ?_
    rw [SortedMap.contains_ofList]
    constructor
    · rintro ⟨hname, hnode⟩
      obtain rfl := h.rules name hname hnode
      exact ⟨(), List.mem_singleton_self _⟩
    · rintro ⟨u, hmem⟩
      obtain ⟨rfl, -⟩ := Prod.mk.inj (List.mem_singleton.1 hmem)
      -- with the tables there are the nodes above them
      exact ⟨isName_ruleName,
        h.rooted _ _ htables.node (Path.child_ne_empty _ _) (Path.isAbove_child _ _)⟩
  have hrule : Access.Reads r (Stored.loadRuleItems db ruleName >>= fun items =>
      Plan.ofExcept (Rule.ofItems ruleName items)) (.ok (.single ⟨tables, storedUnit db r⟩)) := by
    refine (h.reads_loadRuleItems htables).bind_ok ?_
    rw [ofItems_texts]
    exact Access.reads_pure _
  refine (Access.reads_children _).bind_ok ?_
  rw [hkeys]
  refine hrule.bind_ok ?_
  exact Access.reads_pure _

end StoredIn

/-! ### Calls -/

/-- The node after calls, each of which is made whatever becomes of those before it. -/
def afterCalls (calls : List (String × RuleSet)) (s : Stage) : Stage :=
  calls.foldl (fun s call => ((Service.alterSingleRule call.1 call.2).run Stage.answer s).2) s

/-- Whether each of the calls ends well. -/
def EndWell : List (String × RuleSet) → Stage → Prop
  | [], _ => True
  | call :: calls, s => ((Service.alterSingleRule call.1 call.2).run Stage.answer s).1 = .ok ()
    ∧ EndWell calls ((Service.alterSingleRule call.1 call.2).run Stage.answer s).2

instance decidableEndWell : (calls : List (String × RuleSet)) → (s : Stage) →
    Decidable (EndWell calls s)
  | [], _ => .isTrue trivial
  | _ :: calls, _ => @instDecidableAnd _ _ inferInstance (decidableEndWell calls _)

/-- The default data source that a call gives for a database, if any. -/
def givenBy (db : String) (call : String × RuleSet) : Option String :=
  if call.1 = db then call.2.single?.bind (·.defaultDataSource) else none

/-- **The last default data source that calls give** for a database. -/
def lastGiven (db : String) (calls : List (String × RuleSet)) : Option String :=
  calls.foldl (fun unit call => (givenBy db call).or unit) none

variable {s : Stage} {call : String × RuleSet} {calls : List (String × RuleSet)}

/-- A call for another database has nothing to do with the rules of this one. -/
theorem apart_of_ne {db' : String} (hdb : db' ≠ db) (hname' : Path.IsName db') (hname : Path.IsName db) :
    ∀ e ∈ c.storedItems db', e.1.Apart (Path.databaseRules db) := by
  intro e he
  obtain ⟨item, -, hpath⟩ := exists_item_of_mem he
  rw [hpath]
  have hdatabase : (Path.database db').Apart (Path.database db) :=
    Path.apart_child hname'.2 hname.2 hdb
  refine hdatabase.mono ?_ (Path.isAbove_child _ _).covers
  exact (Path.isAbove_child _ _).covers.trans
    ((Path.isAbove_child _ _).covers.trans (Path.isAbove_child _ _).covers)

namespace StoredIn

/-- **One call**, whichever calls of the repository are refused. Whatever becomes of it, the stored
default data source is one that was given before or by it; if it ends well, the one that it gives is
stored, and if it gives none, the one that was stored before. -/
theorem step (h : StoredIn db given s.repository)
    (hnames : call.1 = db ∨ Path.IsName call.1 ∧ Path.IsName db) :
    let after := (Service.alterSingleRule call.1 call.2).run Stage.answer s
    StoredIn db (fun unit => given unit ∨ givenBy db call = some unit) after.2.repository
      ∧ (after.1 = .ok () →
        storedUnit db after.2.repository = (givenBy db call).or (storedUnit db s.repository)) := by
  obtain ⟨db', rules⟩ := call
  unfold Service.alterSingleRule givenBy
  dsimp only at hnames ⊢
  -- without a configuration the call fails before it writes anything
  cases hsingle : rules.single? with
  | none => exact ⟨h.mono fun _ => .inl, fun h => by cases h⟩
  | some c =>
    dsimp only
    by_cases hdb : db' = db
    · subst hdb
      rw [if_pos rfl]
      have hcall := Stage.run_access_of_unsure (h.keeps_replace c)
      exact ⟨hcall.1, fun hok => (hcall.2 hok).2⟩
    · -- what is stored of this database is apart from what a call on another one writes
      rw [if_neg hdb]
      obtain ⟨hname', hname⟩ := hnames.resolve_left hdb
      have hcall := Stage.run_access_of_unsure
        ((keeps_persist db' c s.repository).and (keeps_rooted _ h.rooted))
      have hsame := hcall.1.1 _ (apart_of_ne hdb hname' hname)
      refine ⟨(h.congr hcall.2 hsame).mono fun _ => .inl, fun _ => storedUnit_congr fun q hq => ?_⟩
      exact hsame q ((Path.isAbove_child _ _).covers.trans ((Path.isAbove_child _ _).covers.trans hq))

/-- **Many calls**: the stored default data source is one that was given before or by one of them. -/
theorem after (h : StoredIn db given s.repository)
    (hnames : ∀ call ∈ calls, call.1 = db ∨ Path.IsName call.1 ∧ Path.IsName db) :
    StoredIn db (fun unit => given unit ∨ ∃ call ∈ calls, givenBy db call = some unit)
      (afterCalls calls s).repository := by
  induction calls generalizing s given with
  | nil => exact h.mono fun _ => .inl
  | cons call calls ih =>
    rw [List.forall_mem_cons] at hnames
    refine (ih (h.step hnames.1).1 hnames.2).mono fun unit hunit => ?_
    rcases hunit with (hunit | hunit) | ⟨call', hmem, hunit⟩
    · exact .inl hunit
    · exact .inr ⟨call, List.mem_cons_self, hunit⟩
    · exact .inr ⟨call', List.mem_cons_of_mem _ hmem, hunit⟩

/-- **Calls that all end well** leave the last default data source that they give, or else the one that
was stored before. -/
theorem storedUnit_after (h : StoredIn db given s.repository)
    (hnames : ∀ call ∈ calls, call.1 = db ∨ Path.IsName call.1 ∧ Path.IsName db)
    (hend : EndWell calls s) : storedUnit db (afterCalls calls s).repository
      = calls.foldl (fun unit call => (givenBy db call).or unit) (storedUnit db s.repository) := by
  induction calls generalizing s given with
  | nil => rfl
  | cons call calls ih =>
    rw [List.forall_mem_cons] at hnames
    obtain ⟨hcall, hunit⟩ := h.step hnames.1
    rw [List.foldl_cons, ← hunit hend.1]
    exact ih hcall hnames.2 hend.2

end StoredIn

/-- **What is loaded after a call that ends well**: its configuration, completed by the default data
source that was stored before. -/
theorem StoredIn.run_loadRules (h : StoredIn db given s.repository) {rules : RuleSet}
    (hc : rules.single? = some c)
    (hok : ((Service.alterSingleRule db rules).run Stage.answer s).1 = .ok ()) :
    let final := ((Service.alterSingleRule db rules).run Stage.answer s).2.repository
    (Stored.loadRules db).run answer final
      = (.ok [.single (c.completedBy (storedUnit db s.repository))], final) := by
  have hplan : Service.alterSingleRule db rules
      = Cluster.access (Stored.persistRules db [.single c] >>= Item.commit) := by
    unfold Service.alterSingleRule
    rw [hc]
  rw [hplan] at hok ⊢
  -- the call ends well, so both items show what they are to show
  have hreplaced := Stage.run_access_of_unsure (h.keeps_replace c)
  obtain ⟨htables, hunit⟩ := hreplaced.2 hok
  have hrun := (hreplaced.1.reads_loadRules htables).run
  rw [hunit] at hrun
  exact hrun

/-- **What is loaded after the rule was altered.** From an empty repository, let calls be made for any
databases and with any configurations, whatever becomes of them; only let the databases have names that
can stand in a path, unless all calls are for the same one, so that none lies inside another. If a call
that follows ends well, whichever calls of the repository were refused, then its database has one rule:
the tables of its configuration, with its default data source or, if it names none, with the one that
was stored before. So the configuration itself is loaded exactly if it names one or none was stored. One
that is stored was given by an earlier call, and if all of these ended well, it is the last one that
they gave. -/
theorem loaded_iff (db : String) (calls : List (String × RuleSet)) (rules : RuleSet) (c : SingleRule)
    (start : Stage) (hempty : start.repository.nodes = ∅)
    (hnames : ∀ call ∈ calls, call.1 = db ∨ Path.IsName call.1 ∧ Path.IsName db)
    (hc : rules.single? = some c)
    (hok : ((Service.alterSingleRule db rules).run Stage.answer (afterCalls calls start)).1 = .ok ()) :
    let former := storedUnit db (afterCalls calls start).repository
    let final := ((Service.alterSingleRule db rules).run Stage.answer (afterCalls calls start)).2.repository
    (Stored.loadRules db).run answer final = (.ok [.single (c.completedBy former)], final)
      ∧ ((Stored.loadRules db).run answer final = (.ok [.single c], final)
        ↔ c.defaultDataSource ≠ none ∨ former = none)
      ∧ (∀ unit, former = some unit → ∃ call ∈ calls, givenBy db call = some unit)
      ∧ (EndWell calls start → former = lastGiven db calls) := by
  intro former final
  have hstart : StoredIn db (fun _ => False) start.repository := .of_nodes_eq_empty hempty
  -- whatever the earlier calls have left, it is the rule with some default data source
  have hstored := hstart.after hnames
  have hloaded : (Stored.loadRules db).run answer final
      = (.ok [.single (c.completedBy former)], final) := hstored.run_loadRules hc hok
  refine ⟨hloaded, ?_, fun unit hunit => ?_, fun hend => ?_⟩
  · rw [hloaded, ← completedBy_eq_self_iff]
    simp only [Prod.mk.injEq, Except.ok.injEq, List.cons.injEq, Rule.single.injEq, and_true]
  · exact (hstored.value_eq.2 unit hunit).resolve_left id
  · -- before the first call none is stored
    have hnone : storedUnit db start.repository = none :=
      Option.eq_none_iff_forall_ne_some.2 fun unit h => hstart.value_eq.2 unit h
    exact (hstart.storedUnit_after hnames hend).trans (by rw [hnone, lastGiven])

/-- A node on which nothing is stored. -/
def blank : Stage where
  repository := .memory ⟨∅⟩
  generation := {}

/-- The rules of a call, of which one is a configuration with a table. -/
def oneTable (unit : Option String) : RuleSet := .ofList [.single ⟨["t"], unit⟩]

/-- A call that gives a default data source. -/
def earlier : List (String × RuleSet) := [("d", oneTable (some "x"))]

/-- That call ends well, and so does one that follows and gives none. -/
theorem end_well_earlier : EndWell earlier blank
    ∧ ((Service.alterSingleRule "d" (oneTable none)).run Stage.answer (afterCalls earlier blank)).1
      = .ok () := by
  decide +kernel

/-- The earlier call is for the same database. -/
theorem names_earlier : ∀ call ∈ earlier, call.1 = "d" ∨ Path.IsName call.1 ∧ Path.IsName "d" := by
  decide

/-- After the second call the default data source of the first one is loaded. -/
theorem loaded_with_former_default :
    let final := (Service.alterSingleRule "d" (oneTable none)).run Stage.answer (afterCalls earlier blank)
    final.1 = .ok () ∧ (Stored.loadRules "d").run answer final.2.repository
      = (.ok [.single ⟨["t"], some "x"⟩], final.2.repository) := by
  obtain ⟨hend, hok⟩ := end_well_earlier
  obtain ⟨hloaded, -, -, hformer⟩ := loaded_iff "d" earlier (oneTable none) ⟨["t"], none⟩ blank rfl
    names_earlier rfl hok
  rw [hformer hend] at hloaded
  exact ⟨hok, hloaded⟩

/-- **The configuration that was written last is not always the one that is loaded.** It names no
default data source, and the one that the configuration before it has named stays. -/
theorem not_always_loaded :
    let final := (Service.alterSingleRule "d" (oneTable none)).run Stage.answer (afterCalls earlier blank)
    (oneTable none).single? = some ⟨["t"], none⟩ ∧ final.1 = .ok ()
      ∧ (Stored.loadRules "d").run answer final.2.repository
        = (.ok [.single ⟨["t"], some "x"⟩], final.2.repository)
      ∧ (Stored.loadRules "d").run answer final.2.repository
        ≠ (.ok [.single ⟨["t"], none⟩], final.2.repository) := by
  obtain ⟨hend, hok⟩ := end_well_earlier
  have hblank : StoredIn "d" (fun _ => False) blank.repository := .of_nodes_eq_empty rfl
  -- the earlier call has given a default data source
  have hstored : storedUnit "d" (afterCalls earlier blank).repository = some "x" := by
    have hnone : storedUnit "d" blank.repository = none :=
      Option.eq_none_iff_forall_ne_some.2 fun unit h => hblank.value_eq.2 unit h
    rw [hblank.storedUnit_after names_earlier hend, hnone]
    rfl
  have hrule : (oneTable none).single? = some ⟨["t"], none⟩ := rfl
  have hloaded := (hblank.after names_earlier).run_loadRules hrule hok
  rw [hstored] at hloaded
  -- it is loaded with the tables of the later call, which has none
  refine ⟨hrule, hok, hloaded, fun h => ?_⟩
  have heq := (Prod.mk.inj (hloaded.symm.trans h)).1
  cases heq

end SingleRule

end ClusterCatalog
