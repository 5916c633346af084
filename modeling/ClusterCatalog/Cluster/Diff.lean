import ClusterCatalog.Cluster.Generation

/-!
# Resource diffs

A change of storage units is worked out before it takes effect: which pools were opened for it,
which pools it makes stale, and what the units are afterwards. The opened pools belong to whoever
makes the change until a generation that holds them is installed; the stale pools stay live until
then.
-/

namespace ClusterCatalog

/-- **What a change of storage units does to the resources of a database.** -/
structure ResourceDiff where
  /-- The pools that were opened for the change, by node. -/
  opened : SortedMap PoolId := ∅
  /-- The live pools that the change replaces or removes, by node. -/
  stale : SortedMap PoolId := ∅
  /-- The units that the change removes, in ascending order. -/
  staleUnits : List String := []
  /-- The properties of all units after the change. -/
  merged : SortedMap PoolProperties := ∅
deriving DecidableEq, Inhabited

namespace ResourceDiff

/-- Those of the named units that a resource has, in ascending order. -/
def present (r : Resource) (names : List String) : List String :=
  r.units.keys.filter names.contains

/-- The live pools of units, by node. -/
def poolsOf (r : Resource) (units : List String) : SortedMap PoolId :=
  SortedMap.ofList (units.filterMap fun name => do
    let unit ← r.units.get? name
    let pool ← r.pools.get? unit.node.name
    some (unit.node.name, pool))

/-- **Units are added**, and pools have been opened for them. -/
def register (r : Resource) (units : SortedMap PoolProperties) (opened : SortedMap PoolId) :
    ResourceDiff :=
  { opened, merged := r.properties.overlay units }

/-- **Units are replaced**, and pools have been opened for them: the pools that they had before
become stale. -/
def alter (r : Resource) (units : SortedMap PoolProperties) (opened : SortedMap PoolId) :
    ResourceDiff :=
  { opened, stale := poolsOf r units.keys, merged := r.properties.overlay units }

/-- **Units are removed**: their pools become stale. Names of no unit are passed over. -/
def unregister (r : Resource) (names : List String) : ResourceDiff :=
  { stale := poolsOf r (present r names)
    staleUnits := present r names
    merged := r.properties.filter fun name _ => !(present r names).contains name }

/-- The resource after the change. -/
def applyTo (d : ResourceDiff) (r : Resource) : Resource :=
  { pools := (r.pools.filter fun node _ => !d.stale.contains node).overlay d.opened
    units := Resource.unitsOf d.merged }

/-- **The next generation**, in which a database uses the changed resources and everything else is
kept. A database that is not there yet is empty before the change if it is new, and an error
otherwise. -/
def rebuild (d : ResourceDiff) (db : String) (isNew : Bool) (before : Generation) :
    Except Failure Generation :=
  match before.databases.get? db with
  | some database => before.succeededBy { database with resource := d.applyTo database.resource }
  | none =>
    if isNew then before.succeededBy { Database.empty db with resource := d.applyTo {} }
    else .error (.error (.databaseNotFound db))

end ResourceDiff

end ClusterCatalog
