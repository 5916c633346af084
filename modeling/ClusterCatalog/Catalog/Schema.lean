import ClusterCatalog.Json.Codec

/-!
# Schemas

A schema is a named set of tables and views. Tables and views are keyed by name; the key under
which one is kept need not be the name it carries, and both are part of its written form.
-/

namespace ClusterCatalog

/-- A column of a table. -/
structure Column where
  name : String
  dataType : String
  primaryKey : Bool := false
  nullable : Bool := true
deriving DecidableEq, Inhabited

/-- The column as a primary key, which excludes null. -/
def Column.asPrimaryKey (c : Column) : Column := { c with primaryKey := true, nullable := false }

instance : Codec Column where
  encode c := .ofMembers [("name", .ofString c.name), ("data_type", .ofString c.dataType),
    ("primary_key", .bool c.primaryKey), ("nullable", .bool c.nullable)]
  decode levels doc := do
    let f ← Fields.ofDocument ["name", "data_type", "primary_key", "nullable"] levels doc
    some
      { name := ← f.required "name" .text
        dataType := ← f.required "data_type" .text
        primaryKey := ← f.withDefault "primary_key" .flag false
        nullable := ← f.withDefault "nullable" .flag true }

/-- An index of a table. -/
structure Index where
  name : String
  columns : List String
deriving DecidableEq, Inhabited

instance : Codec Index where
  encode i := .ofMembers [("name", .ofString i.name), ("columns", .ofStrings i.columns)]
  decode levels doc := do
    let f ← Fields.ofDocument ["name", "columns"] levels doc
    some
      { name := ← f.required "name" .text
        columns := ← f.required "columns" (.list .text) }

/-- The definition of a table. -/
structure Table where
  name : String
  columns : List Column := []
  indexes : List Index := []
deriving DecidableEq, Inhabited

instance : Codec Table where
  encode t := .ofMembers [("name", .ofString t.name), ("columns", Codec.encodeList t.columns),
    ("indexes", Codec.encodeList t.indexes)]
  decode levels doc := do
    let f ← Fields.ofDocument ["name", "columns", "indexes"] levels doc
    some
      { name := ← f.required "name" .text
        columns := ← f.withDefault "columns" Codec.decode []
        indexes := ← f.withDefault "indexes" Codec.decode [] }

/-- The definition of a view. -/
structure View where
  name : String
  definition : String
deriving DecidableEq, Inhabited

instance : Codec View where
  encode v := .ofMembers [("name", .ofString v.name), ("definition", .ofString v.definition)]
  decode levels doc := do
    let f ← Fields.ofDocument ["name", "definition"] levels doc
    some
      { name := ← f.required "name" .text
        definition := ← f.required "definition" .text }

/-- **A schema**: tables and views by name. -/
structure Schema where
  name : String
  tables : SortedMap Table := ∅
  views : SortedMap View := ∅
deriving DecidableEq, Inhabited

namespace Schema

/-- The schema with a table added under its own name. -/
def putTable (s : Schema) (t : Table) : Schema := { s with tables := s.tables.insert t.name t }

/-- The schema with a view added under its own name. -/
def putView (s : Schema) (v : View) : Schema := { s with views := s.views.insert v.name v }

/-- The schema of the given tables; of equal names the last one stays. -/
def ofTables (name : String) (tables : List Table) : Schema := tables.foldl putTable { name }

/-- Whether the schema has neither tables nor views. -/
def isEmpty (s : Schema) : Bool := s.tables.isEmpty && s.views.isEmpty

instance : Codec Schema where
  encode s := .ofMembers [("name", .ofString s.name), ("tables", Codec.encodeMap s.tables),
    ("views", Codec.encodeMap s.views)]
  decode levels doc := do
    let f ← Fields.ofDocument ["name", "tables", "views"] levels doc
    some
      { name := ← f.required "name" .text
        tables := ← f.required "tables" Codec.decode
        views := ← f.required "views" Codec.decode }

end Schema

/-- Schemas by name. -/
abbrev Schemas := SortedMap Schema

end ClusterCatalog
