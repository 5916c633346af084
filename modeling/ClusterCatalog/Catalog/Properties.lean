import ClusterCatalog.SortedMap

/-!
# Cluster properties

Settings of the whole cluster, by name. The catalogue does not interpret them.
-/

namespace ClusterCatalog

/-- Properties by name. -/
abbrev Properties := SortedMap String

end ClusterCatalog
