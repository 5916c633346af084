import ClusterCatalog.Store.Schemas

/-!
# Writing a reloaded database

After a rule or a storage unit has changed, the schemas of the database are loaded anew. What is
written to the repository is the difference between the schemas before and after: tables and views
that are new or defined differently are written, and tables that are gone are dropped. Views are
never dropped, and after a removal they are not written either.
-/

namespace ClusterCatalog

namespace Schemas

/-- What `reloaded` has and `current` does not have, or has in another definition, as a schema of
the given name. -/
def additions (name : String) (reloaded : Schema) (current : Option Schema) : Schema :=
  let tables := reloaded.tables.values.filter fun t =>
    current.bind (fun c => c.tables.get? t.name) != some t
  let views := reloaded.views.values.filter fun v =>
    current.bind (fun c => c.views.get? v.name) != some v
  views.foldl Schema.putView (Schema.ofTables name tables)

/-- **The tables and views to be written**, by schema; a schema without any is left out. -/
def toBeWritten (reloaded current : Schemas) : List Schema :=
  (reloaded.entries.map fun e => additions e.1 e.2 (current.get? e.1)).filter (!·.isEmpty)

/-- **The tables to be dropped**, each with the name of its schema. -/
def toBeDropped (reloaded current : Schemas) : List (String × String) :=
  current.entries.flatMap fun e =>
    (e.2.tables.values.filter fun t =>
        !(reloaded.get? e.1).any fun r => r.tables.contains t.name).map
      fun t => (e.1, t.name)

end Schemas

namespace Stored

/-- Drops the tables that a reload no longer has. -/
def dropRemovedTables (db : String) (reloaded current : Schemas) : Access Unit :=
  (Schemas.toBeDropped reloaded current).forM fun t => dropTable db t.1 t.2

/-- **Writes a reload after an alteration.** -/
def persistReloadAltered (db : String) (reloaded current : Schemas) : Access Unit := do
  (Schemas.toBeWritten reloaded current).forM (alterSchema db)
  dropRemovedTables db reloaded current

/-- **Writes a reload after a removal**: views are left as they are. -/
def persistReloadDropped (db : String) (reloaded current : Schemas) : Access Unit := do
  (Schemas.toBeWritten reloaded current).forM (alterSchemaTables db)
  dropRemovedTables db reloaded current

end Stored

end ClusterCatalog
