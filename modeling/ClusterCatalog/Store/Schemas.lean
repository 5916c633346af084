import ClusterCatalog.Catalog.Schema
import ClusterCatalog.Store.Item

/-!
# Stored databases, schemas, tables and views

A database and a schema are plain nodes; each table and each view is a versioned item whose new
definition is committed as soon as it is written. A loaded table is keyed by the name of its node,
whatever name its definition carries. A node without an active revision is no table and no view.
-/

namespace ClusterCatalog

namespace Stored

/-! ### Databases -/

/-- Creates the node of a database. -/
def addDatabase (db : String) : Access Unit := Access.persist (Path.database db) ""

/-- Removes a database with everything below it. -/
def dropDatabase (db : String) : Access Unit := Access.delete (Path.database db)

/-- Whether the node of a database exists. -/
def databaseExists (db : String) : Access Bool := do
  return (← Access.query (Path.database db)).isSome

/-- The names of all databases. -/
def databaseNames : Access (List String) := Access.children Path.metadataRoot

/-! ### Definitions of one kind -/

/-- The entries of the nodes below `parent` whose active texts are values of one type, where `item`
is the path of the item of a name. -/
def loadItems {α : Type} [Codec α] (parent : Path) (item : String → Path) :
    Access (SortedMap α) := do
  let names ← Access.children parent
  let found ← names.mapM fun name => do
    match ← Item.activeValue (item name) with
    | some text => return [(name, ← Access.parse text)]
    | none => return []
  return SortedMap.ofList found.flatten

/-- Writes and commits definitions of tables, in order. -/
def persistTables (db schema : String) (tables : List Table) : Access Unit :=
  tables.forM fun t => do
    let _ ← Item.publish (Path.table db schema t.name) (Codec.write t)

/-- Removes a table. -/
def dropTable (db schema table : String) : Access Unit :=
  Access.delete (Path.table db schema table)

/-- The tables of a schema. -/
def loadTables (db schema : String) : Access (SortedMap Table) :=
  loadItems (Path.tables db schema) (Path.table db schema)

/-- Writes and commits definitions of views, in order. -/
def persistViews (db schema : String) (views : List View) : Access Unit :=
  views.forM fun v => do
    let _ ← Item.publish (Path.view db schema v.name) (Codec.write v)

/-- Removes a view. -/
def dropView (db schema view : String) : Access Unit := Access.delete (Path.view db schema view)

/-- The views of a schema. -/
def loadViews (db schema : String) : Access (SortedMap View) :=
  loadItems (Path.views db schema) (Path.view db schema)

/-! ### Schemas -/

/-- Creates an empty schema. -/
def addSchema (db schema : String) : Access Unit := Access.persist (Path.tables db schema) ""

/-- Removes a schema with everything below it. -/
def dropSchema (db schema : String) : Access Unit := Access.delete (Path.schema db schema)

/-- Writes the tables and views of a schema that a rule change has reshaped. -/
def alterSchema (db : String) (schema : Schema) : Access Unit := do
  addSchema db schema.name
  persistTables db schema.name schema.tables.values
  persistViews db schema.name schema.views.values

/-- Writes the tables of a schema that a removal has reshaped. -/
def alterSchemaTables (db : String) (schema : Schema) : Access Unit := do
  addSchema db schema.name
  persistTables db schema.name schema.tables.values

/-- The names of the schemas of a database. -/
def schemaNames (db : String) : Access (List String) := Access.children (Path.schemas db)

/-- **A schema with its tables and views.** A schema that is not stored has none. -/
def loadSchema (db schema : String) : Access Schema := do
  return { name := schema, tables := ← loadTables db schema, views := ← loadViews db schema }

end Stored

end ClusterCatalog
