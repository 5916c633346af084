import ClusterCatalog.Cluster.Request
import ClusterCatalog.Store.Schemas

/-!
# Administration of a node: databases, schemas and tables

A `Service` is what the administrative operations need to know about the node that they run on. The
operations on databases, schemas and tables write to the repository and leave the current generation
alone: the node learns of them when it loads the repository anew.

The members of the cluster react to the notification of a database by looking at its node. So the
node of a new database is written before the notification, and that of a dropped one is removed
after it.
-/

namespace ClusterCatalog

/-- **The administrative service** of a node. -/
structure Service where
  /-- How long a change of rules waits for the reloaded generation. -/
  reloadTimeoutMs : Nat
  /-- How pools are drained that a change of storage units retires. -/
  drain : DrainPolicy
  /-- How the other members are told about a database. -/
  notify : String → DatabaseEvent → Cluster Unit

namespace Service

/-- The service of the settings, which notifies through the repository. -/
def ofSettings (s : Settings) : Service where
  reloadTimeoutMs := s.cluster.reloadTimeoutMs
  drain := .ofSettings s.pool
  notify db event := Cluster.access (Coordinator.publish db event)

/-! ### Databases -/

/-- Creates a database. -/
def createDatabase (service : Service) (db : String) : Cluster Unit := do
  Cluster.access (Stored.addDatabase db)
  service.notify db .create

/-- Drops a database with everything below it. -/
def dropDatabase (service : Service) (db : String) : Cluster Unit := do
  service.notify db .drop
  Cluster.access (Stored.dropDatabase db)

/-! ### Schemas and tables -/

/-- Creates an empty schema. -/
def createSchema (db schema : String) : Cluster Unit := Cluster.access (Stored.addSchema db schema)

/-- Writes tables and views of a schema, then drops others. -/
def alterSchema (db schema : String) (tables : List Table) (views : List View)
    (droppedTables droppedViews : List String) : Cluster Unit :=
  Cluster.access do
    Stored.persistTables db schema tables
    Stored.persistViews db schema views
    droppedTables.forM (Stored.dropTable db schema)
    droppedViews.forM (Stored.dropView db schema)

/-- **Renames a schema**: what the current generation knows of it is written under the new name
before the old one is dropped. -/
def renameSchema (db schema newName : String) : Cluster Unit := do
  let generation ← Cluster.current
  let database ← Plan.ofExcept (generation.database db)
  match database.schemas.get? schema with
  | none => .fail (.schemaNotFound db schema)
  | some found =>
    Cluster.access do
      if found.isEmpty then
        Stored.addSchema db newName
      else
        Stored.persistTables db newName found.tables.values
        Stored.persistViews db newName found.views.values
      Stored.dropSchema db schema

/-- Drops schemas with everything below them. -/
def dropSchemas (db : String) (schemas : List String) : Cluster Unit :=
  Cluster.access (schemas.forM (Stored.dropSchema db))

/-- Writes a table. -/
def createTable (db schema : String) (table : Table) : Cluster Unit :=
  Cluster.access (Stored.persistTables db schema [table])

/-- Drops a table. -/
def dropTable (db schema table : String) : Cluster Unit :=
  Cluster.access (Stored.dropTable db schema table)

end Service

end ClusterCatalog
