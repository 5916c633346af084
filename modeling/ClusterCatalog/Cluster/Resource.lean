import ClusterCatalog.Catalog.StorageUnit
import ClusterCatalog.SortedMap

/-!
# Resources of a database

The storage units of a database together with the pools that are open for it. Pools are live things
outside of the catalogue; here they are known by number only, so that copying a resource opens or
closes nothing.

A pool belongs to a node, not to a unit: a unit without a pool and a pool without a unit can both
occur.
-/

namespace ClusterCatalog

/-- **A pool**, by the number it was opened under. -/
abbrev PoolId := Nat

/-- **Storage units and open pools** of one database. -/
structure Resource where
  /-- The open pools by the names of their nodes. -/
  pools : SortedMap PoolId := ∅
  /-- The storage units by name. -/
  units : SortedMap StorageUnit := ∅
deriving DecidableEq, Inhabited

namespace Resource

/-- The pool of a storage unit. -/
def poolOf? (r : Resource) (unit : String) : Option PoolId := do
  r.pools.get? (← r.units.get? unit).node.name

/-- The properties of the pools by storage unit. -/
def properties (r : Resource) : SortedMap PoolProperties := r.units.map fun _ u => u.properties

/-- The storage units of the given properties, each under its own name. -/
def unitsOf (properties : SortedMap PoolProperties) : SortedMap StorageUnit :=
  properties.map StorageUnit.mk

end Resource

end ClusterCatalog
