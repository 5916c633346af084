import ClusterCatalog.Proofs.Store.InOrder
import ClusterCatalog.Proofs.Store.Tidy
import ClusterCatalog.Store.Coordinator
import ClusterCatalog.Store.Properties
import ClusterCatalog.Store.Rules

/-!
# What is written leaves the repository tidy

Each operation of the repository publishes texts in items, replaces a batch of items, or makes calls
that touch no history. So all of them leave a tidy repository tidy, if what they write has names.

The items of a batch are different, because the units of a database and the items of a rule have
different names.
-/

namespace ClusterCatalog

open Plan Access

/-! ### Readers -/

namespace Stored

variable {db schema : String}

/-- Loading leaves everything tidy: it writes nothing. -/
theorem tidies_loadUnits (db : String) : Tidies (loadUnits db) := by
  -- a unit without a revision gives a warning, but not that there are too many
  have hwarn : ∀ unit, (StoreRequest.warn (.unitWithoutActiveVersion unit db)).Harmless :=
    fun _ _ h => by cases h
  exact .of_uses (uses_loadUnits_of trivial
    (fun _ => Item.uses_activeValue_of trivial fun _ => trivial) hwarn)

/-- The same for rules. -/
theorem tidies_loadRules (db : String) : Tidies (loadRules db) :=
  .of_uses (uses_loadRules_of trivial (fun _ => trivial)
    fun _ _ => Item.uses_activeValue_of trivial fun _ => trivial)

/-! ### Databases and schemas -/

/-- A database is a node above items, so writing it touches none of them. -/
theorem tidies_addDatabase (hdb : Path.IsName db) : Tidies (addDatabase db) :=
  .persist (fun _ hx => (VersionedItem.isDirectory_database hdb).not_covers hx) _

/-- A database goes with all of its items. -/
theorem tidies_dropDatabase (hdb : Path.IsName db) : Tidies (dropDatabase db) :=
  .delete (VersionedItem.isDirectory_database hdb).uprooting

/-- What is announced stands apart from all items. -/
theorem tidies_notify (hdb : Path.IsName db) (event : DatabaseEvent) :
    Tidies (Coordinator.publish db event) :=
  .persist (fun _ hx => (VersionedItem.isDirectory_coordinator hdb).not_covers hx) _

/-- A schema is a node above items. -/
theorem tidies_addSchema (hdb : Path.IsName db) (hschema : Path.IsName schema) :
    Tidies (addSchema db schema) :=
  .persist (fun _ hx => (VersionedItem.isDirectory_tables hdb hschema).not_covers hx) _

/-- A schema goes with all of its items. -/
theorem tidies_dropSchema (hdb : Path.IsName db) (hschema : Path.IsName schema) :
    Tidies (dropSchema db schema) :=
  .delete (VersionedItem.isDirectory_schema hdb hschema).uprooting

/-- Tables are published one after the other. -/
theorem tidies_persistTables (hdb : Path.IsName db) (hschema : Path.IsName schema)
    {tables : List Table} (h : ∀ t ∈ tables, Path.IsName t.name) :
    Tidies (persistTables db schema tables) :=
  .forM fun t ht => (Tidies.publish (x := .definition ⟨db, schema, .table, t.name⟩)
    (VersionedItem.named_definition_iff.2 ⟨hdb, hschema, h t ht⟩) _).seq fun _ => .pure ()

/-- So are views. -/
theorem tidies_persistViews (hdb : Path.IsName db) (hschema : Path.IsName schema)
    {views : List View} (h : ∀ v ∈ views, Path.IsName v.name) :
    Tidies (persistViews db schema views) :=
  .forM fun v hv => (Tidies.publish (x := .definition ⟨db, schema, .view, v.name⟩)
    (VersionedItem.named_definition_iff.2 ⟨hdb, hschema, h v hv⟩) _).seq fun _ => .pure ()

/-- A table goes with its revisions and its pointer. -/
theorem tidies_dropTable {table : String} (hdb : Path.IsName db) (hschema : Path.IsName schema)
    (htable : Path.IsName table) : Tidies (dropTable db schema table) :=
  .delete (VersionedItem.uprooting_path (x := .definition ⟨db, schema, .table, table⟩)
    (VersionedItem.named_definition_iff.2 ⟨hdb, hschema, htable⟩))

/-- So does a view. -/
theorem tidies_dropView {view : String} (hdb : Path.IsName db) (hschema : Path.IsName schema)
    (hview : Path.IsName view) : Tidies (dropView db schema view) :=
  .delete (VersionedItem.uprooting_path (x := .definition ⟨db, schema, .view, view⟩)
    (VersionedItem.named_definition_iff.2 ⟨hdb, hschema, hview⟩))

/-- The tables of a schema are written, below its node. -/
theorem tidies_alterSchemaTables (hdb : Path.IsName db) {x : Schema} (hx : x.HasNames) :
    Tidies (alterSchemaTables db x) :=
  (tidies_addSchema hdb hx.name).seq fun _ => tidies_persistTables hdb hx.name hx.mem_tables

/-- The tables and views of a schema are written, below its node. -/
theorem tidies_alterSchema (hdb : Path.IsName db) {x : Schema} (hx : x.HasNames) :
    Tidies (alterSchema db x) :=
  (tidies_addSchema hdb hx.name).seq fun _ =>
    (tidies_persistTables hdb hx.name hx.mem_tables).seq fun _ =>
      tidies_persistViews hdb hx.name hx.mem_views

/-- The tables that a reload has removed are dropped. -/
theorem tidies_dropRemovedTables (hdb : Path.IsName db) {reloaded current : Schemas}
    (h : current.HaveNames) : Tidies (dropRemovedTables db reloaded current) :=
  .forM fun t ht => tidies_dropTable hdb (h.toBeDropped t ht).1 (h.toBeDropped t ht).2

/-- **A reload is written**: what it has added, and then what it has removed. -/
theorem tidies_persistReloadAltered (hdb : Path.IsName db) {reloaded current : Schemas}
    (hreloaded : reloaded.HaveNames) (hcurrent : current.HaveNames) :
    Tidies (persistReloadAltered db reloaded current) :=
  (Tidies.forM fun x hx => tidies_alterSchema hdb (hreloaded.toBeWritten x hx)).seq fun _ =>
    tidies_dropRemovedTables hdb hcurrent

/-- The same, with the tables only. -/
theorem tidies_persistReloadDropped (hdb : Path.IsName db) {reloaded current : Schemas}
    (hreloaded : reloaded.HaveNames) (hcurrent : current.HaveNames) :
    Tidies (persistReloadDropped db reloaded current) :=
  (Tidies.forM fun x hx => tidies_alterSchemaTables hdb (hreloaded.toBeWritten x hx)).seq fun _ =>
    tidies_dropRemovedTables hdb hcurrent

/-- The statistics are no items, whatever the names in them are. -/
theorem tidies_persistStatistics (definition : Option Schema) (statistics : SchemaStatistics) :
    Tidies (persistStatistics db schema definition statistics) := by
  -- statistics are no items and stand apart from all of them
  have hpersist : ∀ {x : Path} (v : String), Path.statisticsRoot.Covers x →
      Tidies (Access.persist x v) := fun v hx => .persist (fun y hy =>
    ((VersionedItem.apart_statisticsRoot hy).symm.mono (.refl _) hx).1) v
  have hschema : Path.statisticsRoot.Covers (Path.statisticsSchema db schema) :=
    ((Path.isAbove_child _ db).covers.trans (Path.isAbove_child _ "schemas").covers).trans
      (Path.isAbove_child _ schema).covers
  unfold persistStatistics
  split
  · exact hpersist "" hschema
  · refine Tidies.forM fun e _ => ?_
    split
    · exact hpersist _ ((hschema.trans (Path.isAbove_child _ "tables").covers).trans
        (Path.isAbove_child _ e.1).covers)
    · exact .pure ()

/-! ### Storage units -/

/-- Units are staged together and committed together. -/
theorem tidies_replaceUnits (hdb : Path.IsName db) {units : SortedMap PoolProperties}
    (hunits : ∀ name, units.contains name = true → Path.IsName name) :
    Tidies (persistUnits db units >>= Item.commit) := by
  have hnamed : ∀ e ∈ units.entries, (VersionedItem.unit db e.1).Named := fun e he =>
    VersionedItem.named_unit_iff.2 ⟨hdb, isName_of_mem_entries hunits e he⟩
  -- the units of a map have different names
  have hdistinct : units.entries.Pairwise fun a b =>
      VersionedItem.unit db a.1 ≠ VersionedItem.unit db b.1 := by
    refine units.ascending.imp fun hlt heq => ?_
    obtain ⟨-, hname⟩ := VersionedItem.unit.inj heq
    exact String.lt_irrefl _ (hname ▸ hlt)
  exact Tidies.replace (fun e : String × PoolProperties => VersionedItem.unit db e.1)
    (fun e => Codec.write e.2) hnamed hdistinct

/-- A unit goes with its revisions and its pointer. -/
theorem tidies_deleteUnit {unit : String} (hdb : Path.IsName db) (hunit : Path.IsName unit) :
    Tidies (deleteUnit db unit) :=
  .delete (VersionedItem.uprooting_path (x := .unit db unit)
    (VersionedItem.named_unit_iff.2 ⟨hdb, hunit⟩))

end Stored

/-! ### Rules and properties -/

/-- **A rule has names** wherever there should be one. -/
structure Rule.HasNames (rule : Rule) : Prop where
  name : Path.IsName rule.name
  items : ∀ item ∈ rule.items, Path.IsName item.1

/-- The items of a rule have different names. -/
theorem Rule.pairwise_items (rule : Rule) : rule.items.Pairwise fun a b => a.1 ≠ b.1 := by
  cases rule with
  -- the two items of the rule of undistributed tables have fixed names
  | single rule =>
    have hne : tablesItem ≠ defaultDataSourceItem := by decide
    unfold items
    cases rule.defaultDataSource <;> simp [hne]
  | named rule =>
    refine List.pairwise_map.2 (rule.items.ascending.imp fun hlt heq => ?_)
    exact String.lt_irrefl _ (heq ▸ hlt)

namespace Stored

variable {db : String} {rule : Rule}

/-- A single rule is staged item by item. -/
theorem persistRules_singleton (db : String) (rule : Rule) :
    persistRules db [rule]
      = rule.items.mapM fun item => Item.stage (Path.databaseRuleItem db rule.name item.1) item.2 := by
  unfold persistRules
  rw [List.mapM_cons, List.mapM_nil]
  simp

/-- The items of a rule are staged together and committed together; its name keeps them apart. -/
theorem tidies_replaceRule (hdb : Path.IsName db) (hrule : rule.HasNames) :
    Tidies (persistRules db [rule] >>= Item.commit) := by
  have hnamed : ∀ item ∈ rule.items, (VersionedItem.ruleItem db rule.name item.1).Named :=
    fun item hitem => VersionedItem.named_ruleItem_iff.2 ⟨hdb, hrule.name, hrule.items item hitem⟩
  -- the items of one rule have different names, so none of them is staged twice
  have hdistinct : rule.items.Pairwise fun a b =>
      VersionedItem.ruleItem db rule.name a.1 ≠ VersionedItem.ruleItem db rule.name b.1 :=
    rule.pairwise_items.imp fun hne heq => hne (VersionedItem.ruleItem.inj heq).2.2
  rw [persistRules_singleton]
  exact Tidies.replace (fun item : String × String => VersionedItem.ruleItem db rule.name item.1)
    (fun item => item.2) hnamed hdistinct

/-- A rule goes with all of its items. -/
theorem tidies_deleteRule {rule : String} (hdb : Path.IsName db) (hrule : Path.IsName rule) :
    Tidies (deleteRule db rule) :=
  .delete (VersionedItem.isDirectory_rule hdb hrule).uprooting

/-- Items of a rule go one by one. -/
theorem tidies_deleteRuleItems (hdb : Path.IsName db) (hrule : rule.HasNames) :
    Tidies (deleteRuleItems db [rule]) := by
  refine Tidies.forM fun rule' hrule' => Tidies.forM fun item hitem => ?_
  obtain rfl := List.mem_singleton.1 hrule'
  exact .delete (VersionedItem.uprooting_path (x := .ruleItem db rule'.name item.1)
    (VersionedItem.named_ruleItem_iff.2 ⟨hdb, hrule.name, hrule.items item hitem⟩))

/-- A global rule is published as one item. -/
theorem tidies_persistGlobalRule (hrule : Path.IsName rule.name) :
    Tidies (persistGlobalRules [rule]) := by
  refine Tidies.forM fun rule' hrule' => ?_
  obtain rfl := List.mem_singleton.1 hrule'
  exact (Tidies.publish (x := .globalRule rule'.name)
    (VersionedItem.named_globalRule_iff.2 hrule) _).seq fun _ => .pure ()

/-- Properties are published as one item. -/
theorem tidies_persistProperties (props : Properties) : Tidies (persistProperties props) :=
  (Tidies.publish VersionedItem.named_properties _).seq fun _ => .pure ()

end Stored

end ClusterCatalog
