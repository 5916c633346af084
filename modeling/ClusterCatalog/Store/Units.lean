import ClusterCatalog.Catalog.StorageUnit
import ClusterCatalog.Store.Item

/-!
# Stored storage units

Each storage unit is a versioned item. Writing units leaves the switches uncommitted: whoever writes
them decides when the new properties become visible.
-/

namespace ClusterCatalog

namespace Stored

/-- **Writes a new revision of every unit**, in the order of their names, and gives the switches
that are left to commit. -/
def persistUnits (db : String) (units : SortedMap PoolProperties) : Access (List PendingSwitch) :=
  units.entries.mapM fun e => Item.stage (Path.storageUnit db e.1) (Codec.write e.2)

/-- The active properties of the units of a database. A unit without an active revision is reported
and left out. -/
def loadUnits (db : String) : Access (SortedMap PoolProperties) := do
  let names ← Access.children (Path.storageUnits db)
  let found ← names.mapM fun name => do
    match ← Item.activeValue (Path.storageUnit db name) with
    | some text => return [(name, ← Access.parse text)]
    | none =>
      Access.warn (.unitWithoutActiveVersion name db)
      return []
  return SortedMap.ofList found.flatten

/-- Removes a unit. -/
def deleteUnit (db unit : String) : Access Unit := Access.delete (Path.storageUnit db unit)

end Stored

end ClusterCatalog
