import ClusterCatalog.Cluster.Request

/-!
# Working out a change of storage units

Pools are opened one after the other in the order of the unit names. If one cannot be opened, those
that were opened for the same change are handed over to be drained, so a failed change leaves no
pool behind.
-/

namespace ClusterCatalog

namespace Switch

/-- Opens a pool for each unit in order; `opened` are the pools opened so far, by node. -/
def openFrom (policy : DrainPolicy) (opened : SortedMap PoolId) :
    List (String × PoolProperties) → Cluster (SortedMap PoolId)
  | [] => return opened
  | (unit, properties) :: later => do
    match ← Cluster.openPool unit properties with
    | .ok pool => openFrom policy (opened.insert unit pool) later
    | .error e =>
      Cluster.warn (.openFailed unit e)
      Cluster.retire policy opened.values
      .fail e

/-- **Opens a pool for each unit**, all of them or none. -/
def openAll (policy : DrainPolicy) (units : SortedMap PoolProperties) :
    Cluster (SortedMap PoolId) :=
  openFrom policy ∅ units.entries

/-- **Units are added.** Units that are there already are an error, and then no pool is opened. -/
def register (policy : DrainPolicy) (r : Resource) (units : SortedMap PoolProperties) :
    Cluster ResourceDiff := do
  let duplicates := units.keys.filter r.units.contains
  if duplicates ≠ [] then
    .fail (.duplicateUnits duplicates)
  else
    return .register r units (← openAll policy units)

/-- **Units are replaced** or, if they are not there, added. -/
def alter (policy : DrainPolicy) (r : Resource) (units : SortedMap PoolProperties) :
    Cluster ResourceDiff := do
  return .alter r units (← openAll policy units)

end Switch

end ClusterCatalog
