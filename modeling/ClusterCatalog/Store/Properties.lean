import ClusterCatalog.Catalog.Properties
import ClusterCatalog.Store.Item

/-!
# Stored properties

The properties of the whole cluster are one versioned item that is committed as soon as it is
written.
-/

namespace ClusterCatalog

namespace Stored

/-- Replaces the properties. -/
def persistProperties (props : Properties) : Access Unit := do
  let _ ← Item.publish Path.properties (Codec.write props)

/-- The properties, none before the first write. -/
def loadProperties : Access Properties := do
  match ← Item.activeValue Path.properties with
  | some text => Access.parse text
  | none => return ∅

end Stored

end ClusterCatalog
