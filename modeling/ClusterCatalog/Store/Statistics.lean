import ClusterCatalog.Catalog.Schema
import ClusterCatalog.Catalog.Statistics
import ClusterCatalog.Store.Access

/-!
# Stored statistics

The rows of each table are one plain node; there are no revisions.
-/

namespace ClusterCatalog

namespace Stored

/-- **Writes the statistics of one schema.** `definition` is what the rows were collected for;
tables that it does not have are passed over. Statistics without tables leave a node for the
schema. -/
def persistStatistics (db schema : String) (definition : Option Schema)
    (statistics : SchemaStatistics) : Access Unit :=
  if statistics.tables.isEmpty then Access.persist (Path.statisticsSchema db schema) ""
  else statistics.tables.entries.forM fun e => do
    if definition.any fun d => d.tables.contains e.1 then
      Access.persist (Path.statisticsTable db schema e.1) (Codec.write e.2.rows)

/-- The statistics of one table, if there are any. -/
def loadTableStatistics (db schema table : String) : Access (Option TableStatistics) := do
  match ← Access.query (Path.statisticsTable db schema table) with
  | some text => return some { name := table, rows := ← Access.parse text }
  | none => return none

end Stored

end ClusterCatalog
