import ClusterCatalog.Json.Codec

/-!
# Statistics

Rows collected from system tables, by table, schema and database.
-/

namespace ClusterCatalog

/-- The collected rows of one table. -/
structure TableStatistics where
  name : String
  rows : List (List Value)
deriving Inhabited

instance : Codec TableStatistics where
  encode t := .ofMembers [("name", .ofString t.name), ("rows", Codec.encode t.rows)]
  decode levels doc := do
    let f ← Fields.ofDocument ["name", "rows"] levels doc
    some
      { name := ← f.required "name" .text
        rows := ← f.required "rows" Codec.decode }

/-- The statistics of the tables of one schema. -/
structure SchemaStatistics where
  tables : SortedMap TableStatistics := ∅
deriving Inhabited

/-- The statistics with those of one table put under its own name. -/
def SchemaStatistics.putTable (s : SchemaStatistics) (t : TableStatistics) : SchemaStatistics :=
  ⟨s.tables.insert t.name t⟩

instance : Codec SchemaStatistics where
  encode s := .ofMembers [("tables", Codec.encodeMap s.tables)]
  decode levels doc := do
    let f ← Fields.ofDocument ["tables"] levels doc
    some { tables := ← f.required "tables" Codec.decode }

/-- The statistics of the schemas of one database. -/
structure DatabaseStatistics where
  schemas : SortedMap SchemaStatistics := ∅
deriving Inhabited

instance : Codec DatabaseStatistics where
  encode d := .ofMembers [("schemas", Codec.encodeMap d.schemas)]
  decode levels doc := do
    let f ← Fields.ofDocument ["schemas"] levels doc
    some { schemas := ← f.required "schemas" Codec.decode }

end ClusterCatalog
