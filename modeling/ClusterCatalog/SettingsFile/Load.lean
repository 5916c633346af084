import ClusterCatalog.SettingsFile.Conversion
import ClusterCatalog.SettingsFile.Layer
import ClusterCatalog.SettingsFile.Reader

/-!
# Loading the settings of a node

A file is read, its settings are laid together as one table, and the table is converted. Each of
the three steps has its own way to fail, and the first that fails decides.
-/

namespace ClusterCatalog

namespace SettingsFile

/-- **Why a file gives no settings.** -/
inductive Defect where
  /-- It is no file of settings. -/
  | malformed
  /-- It names a place that no list can have. -/
  | outOfReach
  /-- A value cannot be converted to the type of its field. -/
  | invalid
deriving DecidableEq, Inhabited

/-- **The settings of a node** that the text of a file describes. -/
def load (text : String) : Except Defect Settings := do
  let file ← (read text).elim (.error .malformed) .ok
  let table ← (layer file).elim (.error .outOfReach) .ok
  table.asSettings?.elim (.error .invalid) .ok

end SettingsFile

end ClusterCatalog
