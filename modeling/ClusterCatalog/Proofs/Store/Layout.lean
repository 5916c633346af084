import ClusterCatalog.Proofs.Store.Schemas
import ClusterCatalog.Proofs.Tree.Names

/-!
# Where the versioned items stand

There are five kinds of versioned items, and each has its place in the tree (`VersionedItem.path`). The
path of an item is put together from names, some of which are fixed (`VersionedItem.names`). This
module reads off those names what the operations on the tree rely on:

* different items are apart (`VersionedItem.apart`), so no node of one item, and nothing that is done
  with it, is at or below the path of another one (`VersionedItem.nodes_kept_apart`);
* a node of a **directory** stands above items only, never at or below one (`IsDirectory`). Databases,
  schemas and rules have directories; writing to one touches no item, and removing one removes items as
  a whole;
* the statistics stand outside of everything that holds items.
-/

namespace ClusterCatalog

open ClusterCatalog.Path

/-- **A versioned item** of the repository. -/
inductive VersionedItem where
  | definition (place : Place)
  | unit (db name : String)
  | ruleItem (db rule name : String)
  | globalRule (rule : String)
  | properties
deriving DecidableEq

namespace VersionedItem

variable {x y : VersionedItem}

/-- The path of an item. -/
def path : VersionedItem → Path
  | definition place => place.path
  | unit db name => Path.storageUnit db name
  | ruleItem db rule name => Path.databaseRuleItem db rule name
  | globalRule rule => Path.globalRule rule
  | properties => Path.properties

/-- The names that the path of an item is put together from. -/
def names : VersionedItem → List String
  | definition place =>
    ["metadata", place.db, "schemas", place.schema, place.kind.node, place.name]
  | unit db name => ["metadata", db, "data_sources", "units", name]
  | ruleItem db rule name => ["metadata", db, "rules", rule, name]
  | globalRule rule => ["rules", rule]
  | properties => ["props"]

/-- Whether an item stands at a path of names. -/
def Named (x : VersionedItem) : Prop := ∀ name ∈ x.names, IsName name

instance (x : VersionedItem) : Decidable x.Named := List.decidableBAll _ _

/-- The path of an item is made of its names. -/
theorem path_eq (x : VersionedItem) : x.path = ofNames x.names := by cases x <;> rfl

/-- A definition is named if its database, its schema and the definition itself are. -/
theorem named_definition_iff {place : Place} : (definition place).Named ↔ place.Named := by
  have hkind := Place.isName_node place.kind
  have hfixed : IsName "metadata" ∧ IsName "schemas" := by decide
  simp [Named, names, Place.Named, hkind, hfixed]

/-- A storage unit is named if it and its database are. -/
theorem named_unit_iff {db name : String} : (unit db name).Named ↔ IsName db ∧ IsName name := by
  have hfixed : IsName "metadata" ∧ IsName "data_sources" ∧ IsName "units" := by decide
  simp [Named, names, hfixed]

/-- An item of a rule is named if it, its rule and its database are. -/
theorem named_ruleItem_iff {db rule name : String} :
    (ruleItem db rule name).Named ↔ IsName db ∧ IsName rule ∧ IsName name := by
  have hfixed : IsName "metadata" ∧ IsName "rules" := by decide
  simp [Named, names, hfixed]

/-- A global rule is named if its name can stand in a path. -/
theorem named_globalRule_iff {rule : String} : (globalRule rule).Named ↔ IsName rule := by
  have hfixed : IsName "rules" := by decide
  simp [Named, names, hfixed]

/-- Properties have a name of their own. -/
theorem named_properties : properties.Named := by decide

/-- Every item has names. -/
theorem names_ne_nil (x : VersionedItem) : x.names ≠ [] := by
  cases x <;> exact List.cons_ne_nil _ _

/-- Every item has a path. -/
theorem path_ne_empty (x : VersionedItem) : x.path ≠ "" := by
  rw [path_eq, Ne, ofNames_eq_empty_iff]
  exact names_ne_nil x

/-! ### Items are apart -/

/-- Tables and views stand below different nodes. -/
theorem node_inj {kind kind' : DefinitionKind} (h : kind.node = kind'.node) : kind = kind' := by
  cases kind <;> cases kind' <;> first | rfl | exact absurd h (by decide)

/-- The names of an item are not the first names of another one. -/
theorem eq_of_first_names (h : x.names <+: y.names) : x = y := by
  -- items of different kinds differ in a fixed name or in the number of names
  cases x <;> cases y <;> simp_all [names, List.cons_prefix_cons]
  -- two definitions
  rename_i place place'
  obtain ⟨db, schema, kind, name⟩ := place
  obtain ⟨db', schema', kind', name'⟩ := place'
  obtain ⟨rfl, rfl, hkind, rfl⟩ := h
  obtain rfl := node_inj hkind
  rfl

/-- **Different items are apart.** -/
theorem apart (hx : x.Named) (hy : y.Named) (hne : x ≠ y) : x.path.Apart y.path := by
  rw [path_eq, path_eq, Apart, ofNames_covers_iff hx hy, ofNames_covers_iff hy hx]
  exact ⟨fun h => hne (eq_of_first_names h), fun h => hne (eq_of_first_names h).symm⟩

/-- **The places of items are separate**: none of them is above another one. -/
theorem separate : Separate fun p => ∃ x : VersionedItem, x.Named ∧ p = x.path := by
  rintro _ _ ⟨x, hx, rfl⟩ ⟨y, hy, rfl⟩ habove
  -- an item is not above itself, and different items lie apart
  by_cases heq : x = y
  · exact habove.ne (congrArg path heq)
  · exact (apart hx hy heq).1 habove.covers

/-- An item is known by its path. -/
theorem path_inj (hx : x.Named) (hy : y.Named) (h : x.path = y.path) : x = y := by
  by_contra hne
  exact (apart hx hy hne).1 (.inl h)

/-! ### The nodes of different items -/

/-- The nodes of an item are below its path. -/
theorem isAbove_of_isNode {path node : Path} (h : Item.IsNode path node) : path.IsAbove node := by
  cases h with
  | pointer => exact isAbove_activeVersion path
  | versions => exact isAbove_versions path
  | revision n => exact isAbove_version path n

/-- What is below the path of an item starts with it and a slash. -/
theorem startsWith_below_iff (hx : x.Named) {node : Path} :
    startsWith node (below x.path) = true ↔ x.path.IsAbove node := by
  obtain ⟨parent, name, hname, hpath⟩ := exists_ofNames_eq_child (names_ne_nil x) hx
  rw [startsWith_iff, path_eq, hpath, toList_below_child hname]
  rfl

/-- **The layout keeps versioned items apart**, whatever their names imitate. The paths of two
different items differ, and neither is an ancestor of the other one. No pointer, revision or node of
revisions of one item is at or below the path of the other one; and publishing to an item, with
everything that is listed, read, written, pointed to and pruned on the way, is about its nodes only. -/
theorem nodes_kept_apart (hx : x.Named) (hy : y.Named) (hne : x ≠ y) :
    x.path ≠ y.path ∧ x.path ∉ ancestors y.path ∧ y.path ∉ ancestors x.path
      ∧ (∀ node, Item.IsNode y.path node →
          node ≠ x.path ∧ x.path ∉ ancestors node ∧ startsWith node (below x.path) = false)
      ∧ ∀ value, (Item.publish y.path value).Uses fun call : StoreRequest =>
          ∀ node, call.node? = some node → Item.IsNode y.path node := by
  have hapart : x.path.Apart y.path := apart hx hy hne
  refine ⟨?_, ?_, ?_, ?_, ?_⟩
  · intro heq
    exact hapart.1 (.inl heq)
  · intro hmem
    exact hapart.1 (mem_ancestors_iff.1 hmem).2.covers
  · intro hmem
    exact hapart.2 (mem_ancestors_iff.1 hmem).2.covers
  · intro node hnode
    -- a node at or below both paths would put one of them above the other one
    have hnot : ¬ x.path.Covers node := fun hcovers =>
      (hapart.mono hcovers (isAbove_of_isNode hnode).covers).1 (.refl node)
    refine ⟨fun heq => hnot (.inl heq.symm), fun hmem => hnot (mem_ancestors_iff.1 hmem).2.covers, ?_⟩
    rw [Bool.eq_false_iff, Ne, startsWith_below_iff hx]
    exact fun habove => hnot habove.covers
  · intro value
    exact (Item.calls_publish y.path value).mono fun call hcall => hcall.isNode

/-- A table of the schema `active_version` in the database `rules`, called `versions`, and an item of the
rule `active_version` of that database, called `tables`. -/
theorem nodes_kept_apart_imitating_names :
    let x := definition ⟨"rules", "active_version", .table, "versions"⟩
    let y := ruleItem "rules" "active_version" "tables"
    x.Named ∧ y.Named ∧ x ≠ y ∧ x.path ≠ y.path ∧ x.path ∉ ancestors y.path
      ∧ y.path ∉ ancestors x.path
      ∧ (∀ node, Item.IsNode y.path node →
          node ≠ x.path ∧ x.path ∉ ancestors node ∧ startsWith node (below x.path) = false)
      ∧ ∀ value, (Item.publish y.path value).Uses fun call : StoreRequest =>
          ∀ node, call.node? = some node → Item.IsNode y.path node :=
  ⟨by decide, by decide, by decide, nodes_kept_apart (by decide) (by decide) (by decide)⟩

/-! ### Directories -/

/-- **The names of a directory**: there is no item at the path of them or above it. -/
structure IsDirectory (l : List String) : Prop where
  ne_nil : l ≠ []
  names : ∀ name ∈ l, IsName name
  not_prefix : ∀ x : VersionedItem, ¬ x.names <+: l

section Directories

variable {db schema rule : String} {l : List String}

/-- A database is above items. -/
theorem isDirectory_database (hdb : IsName db) : IsDirectory ["metadata", db] where
  ne_nil := List.cons_ne_nil _ _
  names := by simp [hdb]; decide
  not_prefix x := by cases x <;> simp [names, List.cons_prefix_cons]

/-- A schema is above items. -/
theorem isDirectory_schema (hdb : IsName db) (hschema : IsName schema) :
    IsDirectory ["metadata", db, "schemas", schema] where
  ne_nil := List.cons_ne_nil _ _
  names := by simp [hdb, hschema]; decide
  not_prefix x := by cases x <;> simp [names, List.cons_prefix_cons]

/-- The node of the tables is above items. -/
theorem isDirectory_tables (hdb : IsName db) (hschema : IsName schema) :
    IsDirectory ["metadata", db, "schemas", schema, "tables"] where
  ne_nil := List.cons_ne_nil _ _
  names := by simp [hdb, hschema]; decide
  not_prefix x := by cases x <;> simp [names, List.cons_prefix_cons]

/-- A rule is above its items. -/
theorem isDirectory_rule (hdb : IsName db) (hrule : IsName rule) :
    IsDirectory ["metadata", db, "rules", rule] where
  ne_nil := List.cons_ne_nil _ _
  names := by simp [hdb, hrule]; decide
  not_prefix x := by cases x <;> simp [names, List.cons_prefix_cons]

/-- What is announced of a database is neither an item nor below one. -/
theorem isDirectory_coordinator (hdb : IsName db) :
    IsDirectory ["states", "listener_coordinator", db] where
  ne_nil := List.cons_ne_nil _ _
  names := by simp [hdb]; decide
  not_prefix x := by cases x <;> simp [names, List.cons_prefix_cons]

/-- No item covers a directory. -/
theorem IsDirectory.not_covers (h : IsDirectory l) (hx : x.Named) : ¬ x.path.Covers (ofNames l) := by
  rw [path_eq, ofNames_covers_iff hx h.names]
  exact h.not_prefix x

end Directories

/-! ### Removing items as a whole -/

/-- **A node that holds items as a whole**: it has a name, and each item is below it, or is the node
itself, or is apart from it. -/
structure Uprooting (p : Path) : Prop where
  exists_eq_child : ∃ parent name, IsName name ∧ p = child parent name
  covers_or_apart : ∀ x : VersionedItem, x.Named → p.Covers x.path ∨ p.Apart x.path

/-- Removing a directory takes items whole or not at all. -/
theorem IsDirectory.uprooting {l : List String} (h : IsDirectory l) : Uprooting (ofNames l) where
  exists_eq_child := exists_ofNames_eq_child h.ne_nil h.names
  covers_or_apart _ hx := (Classical.em _).imp_right fun hcovers => ⟨hcovers, h.not_covers hx⟩

/-- So does removing an item. -/
theorem uprooting_path (hx : x.Named) : Uprooting x.path where
  exists_eq_child := by
    rw [path_eq]
    exact exists_ofNames_eq_child (names_ne_nil x) hx
  covers_or_apart y hy := by
    by_cases heq : x = y
    · exact .inl (.inl (congrArg path heq))
    · exact .inr (apart hx hy heq)

/-! ### What is no item -/

/-- The statistics are apart from all items. -/
theorem apart_statisticsRoot (hx : x.Named) : statisticsRoot.Apart x.path := by
  have hnames : ∀ name ∈ ["statistics", "databases"], IsName name := by decide
  have hroot : statisticsRoot = ofNames ["statistics", "databases"] := rfl
  rw [path_eq, hroot, Apart, ofNames_covers_iff hnames hx, ofNames_covers_iff hx hnames]
  cases x <;> simp [names, List.cons_prefix_cons]

end VersionedItem

end ClusterCatalog
