import ClusterCatalog.Cluster.Service
import ClusterCatalog.Cluster.Switch
import ClusterCatalog.Store.Reload
import ClusterCatalog.Store.Statistics
import ClusterCatalog.Store.Units

/-!
# Administration of a node: storage units

A change of storage units goes through five stages: the diff against the current generation is
worked out, which opens the new pools; the next generation is built from it; the change is written
and committed; the changed database is installed into whatever generation is current by then; and
the pools that are no longer used are retired. If anything fails after the pools were opened, the
new ones are retired instead, and the current generation stays as it is.
-/

namespace ClusterCatalog

/-- **A change of storage units** of one database. -/
inductive UnitChange where
  /-- New units. -/
  | register (units : SortedMap PoolProperties)
  /-- Other properties of units. -/
  | alter (units : SortedMap PoolProperties)
  /-- The end of a unit. -/
  | unregister (unit : String)

namespace UnitChange

/-- The diff of a change, for which pools are opened. -/
def diff (policy : DrainPolicy) (r : Resource) : UnitChange → Cluster ResourceDiff
  | register units => Switch.register policy r units
  | alter units => Switch.alter policy r units
  | unregister unit => return .unregister r [unit]

/-- Writes the statistics that the reloaded generation has of a database. -/
def persistStatistics (db : String) (before reload : Generation) : Access Unit := do
  if let some statistics := reload.statistics.get? db then
    let definitions := before.schemas db
    statistics.schemas.entries.forM fun e =>
      Stored.persistStatistics db e.1 (definitions.get? e.1) e.2

/-- Writes what follows from new or altered units. -/
def afterAlteration (db : String) (before reload : Generation) : Access Unit := do
  persistStatistics db before reload
  Stored.persistReloadAltered db (reload.schemas db) (before.schemas db)

/-- Writes what follows from a removed unit. -/
def afterRemoval (db : String) (before reload : Generation) : Access Unit := do
  let database ← Plan.ofExcept (reload.database db)
  database.schemas.values.forM (Stored.alterSchemaTables db)
  persistStatistics db before reload
  Stored.persistReloadDropped db (reload.schemas db) (before.schemas db)

/-- Writes a change and commits it. -/
def persist (db : String) (before reload : Generation) : UnitChange → Access Unit
  | register units | alter units => do
    Item.commit (← Stored.persistUnits db units)
    afterAlteration db before reload
  | unregister unit => do
    Stored.deleteUnit db unit
    afterRemoval db before reload

/-- Builds the changed database, writes the change and installs the database. -/
def apply (db : String) (before : Generation) (diff : ResourceDiff) (change : UnitChange) :
    Cluster Unit := do
  let reload ← Cluster.build db false diff before
  let database ← Plan.ofExcept (reload.database db)
  Cluster.access (change.persist db before reload)
  let _ ← Cluster.installDatabase database

end UnitChange

namespace Service

/-- **Carries out a change of storage units.** -/
def switchUnits (service : Service) (db : String) (change : UnitChange) : Cluster Unit := do
  let before ← Cluster.current
  let database ← Plan.ofExcept (before.database db)
  let diff ← change.diff service.drain database.resource
  match ← (change.apply db before diff).attempt with
  | .ok () => Cluster.retire service.drain diff.stale.values
  | .error e =>
    Cluster.warn (.unitChangeFailed db e)
    Cluster.retire service.drain diff.opened.values
    .fail e

/-- Adds storage units to a database. -/
def registerUnits (service : Service) (db : String) (units : SortedMap PoolProperties) :
    Cluster Unit :=
  service.switchUnits db (.register units)

/-- Replaces the properties of storage units. -/
def alterUnits (service : Service) (db : String) (units : SortedMap PoolProperties) :
    Cluster Unit :=
  service.switchUnits db (.alter units)

/-- **Removes storage units** one after the other; a unit that is not stored is passed over. -/
def unregisterUnits (service : Service) (db : String) (units : List String) : Cluster Unit := do
  let stored ← Cluster.access (Stored.loadUnits db)
  units.forM fun unit => do
    if stored.contains unit then
      service.switchUnits db (.unregister unit)

end Service

end ClusterCatalog
