import ClusterCatalog.Error
import ClusterCatalog.Json.Codec

/-!
# Rules

A rule configures one feature for a database or for the whole cluster. The single-table rule is
known to the catalogue; every other rule is a set of named items whose values are not interpreted.

A database rule is stored item by item (`Rule.items`), so that a change of one item does not touch
the others, and is put together again from the items that are found (`Rule.ofItems`). Which kind of
rule the items belong to is told by the name of the rule alone: `single` is the single-table rule.
-/

namespace ClusterCatalog

/-- The rule for tables that are not distributed. -/
structure SingleRule where
  /-- The tables of the rule, each as `unit.table` or `unit.*`. -/
  tables : List String
  /-- The storage unit that receives new tables. -/
  defaultDataSource : Option String
deriving DecidableEq, Inhabited

/-- The name that the single-table rule is stored under. -/
def SingleRule.ruleName : String := "single"

instance : Codec SingleRule where
  encode r := .ofMembers [("tables", .ofStrings r.tables),
    ("default_data_source", .ofString? r.defaultDataSource)]
  decode levels doc := do
    let f ← Fields.ofDocument ["tables", "default_data_source"] levels doc
    some
      { tables := ← f.required "tables" (.list .text)
        defaultDataSource := ← f.optional "default_data_source" .text }

/-- A rule of named items. -/
structure NamedRule where
  name : String
  items : SortedMap Value := ∅
deriving Inhabited

instance : Codec NamedRule where
  encode r := .ofMembers [("name", .ofString r.name), ("items", Codec.encodeMap r.items)]
  decode levels doc := do
    let f ← Fields.ofDocument ["name", "items"] levels doc
    some
      { name := ← f.required "name" .text
        items := ← f.required "items" Codec.decode }

/-- **The configuration of a rule.** -/
inductive Rule where
  | single (rule : SingleRule)
  | named (rule : NamedRule)
deriving Inhabited

namespace Rule

/-- The name of a rule, which is also its node in the repository. -/
def name : Rule → String
  | single _ => SingleRule.ruleName
  | named rule => rule.name

/-- Whether two configurations are the same, their values compared as numbers where they are
floating-point numbers. -/
def agrees : Rule → Rule → Bool
  | single a, single b => a == b
  | named a, named b => a.name == b.name && a.items.entries == b.items.entries
  | _, _ => false

instance : BEq Rule := ⟨agrees⟩

instance : Codec Rule where
  encode
    | single rule => .ofMembers [("Single", Codec.encode rule)]
    | named rule => .ofMembers [("Named", Codec.encode rule)]
  decode
    | levels + 1, .object [(some "Single", doc)] => single <$> Codec.decode levels doc
    | levels + 1, .object [(some "Named", doc)] => named <$> Codec.decode levels doc
    | _, _ => none

/-- The item that holds the tables of the single-table rule. -/
def tablesItem : String := "tables"

/-- The item that holds the default data source of the single-table rule. -/
def defaultDataSourceItem : String := "default_data_source"

/-- **The items of a rule** with their texts, each of which is stored on its own. -/
def items : Rule → List (String × String)
  | single rule =>
    (tablesItem, Codec.write rule.tables)
      :: (rule.defaultDataSource.map fun unit => (defaultDataSourceItem, Codec.write unit)).toList
  | named rule => rule.items.entries.map fun e => (e.1, Codec.write e.2)

/-- The value of a text, or the error of a text that is none. -/
private def readOr {α : Type} [Codec α] (e : Error) (text : String) : Except Error α :=
  (Codec.read? text).elim (.error e) .ok

/-- **The rule of the items found under a name.** -/
def ofItems (ruleName : String) (items : SortedMap String) : Except Error Rule := do
  if ruleName = SingleRule.ruleName then
    let tables ← (items.get? tablesItem).elim (pure []) (readOr .malformedText)
    let unit ← (items.get? defaultDataSourceItem).mapM (readOr .malformedText)
    return single ⟨tables, unit⟩
  let values ← items.entries.mapM fun e => do
    return (e.1, ← readOr (.malformedItem ruleName e.1) e.2)
  return named ⟨ruleName, SortedMap.ofList values⟩

end Rule

end ClusterCatalog
