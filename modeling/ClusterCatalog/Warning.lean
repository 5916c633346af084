import ClusterCatalog.Error

/-!
# Warnings

What an operation tells the operator without failing. `Warning.message` is the text that is logged.
-/

namespace ClusterCatalog

/-- **Something that did not go as it should**, but does not stop the operation. -/
inductive Warning where
  /-- An item has more than two revisions. -/
  | manyVersions (path : String)
  /-- Superseded revisions could not be listed, so none was removed. -/
  | pruneListFailed (path : String) (cause : Error)
  /-- A superseded revision could not be removed. -/
  | pruneFailed (revision : Nat) (path : String) (cause : Error)
  /-- A storage unit has no active revision. -/
  | unitWithoutActiveVersion (unit database : String)
  /-- A generation was installed that is not newer than the one it replaces. -/
  | generationNotAdvancing (installed superseded : Nat)
  /-- A retired pool is closed although connections are in use. -/
  | drainTimedOut (url : String) (active : Nat)
  /-- A retired pool could not be closed. -/
  | closeFailed (url : String) (cause : Error)
  /-- The pool of a storage unit could not be opened. -/
  | openFailed (unit : String) (cause : Error)
  /-- A change of storage units failed after its pools were opened. -/
  | unitChangeFailed (database : String) (cause : Error)
deriving DecidableEq, Inhabited

/-- The text of a warning. -/
def Warning.message : Warning → String
  | manyVersions path =>
    "There are multiple versions of: " ++ path ++ ", please check the configuration."
  | pruneListFailed path cause =>
    "Failed to list versions of " ++ path ++ " for pruning: " ++ cause.message
  | pruneFailed revision path cause =>
    "Failed to prune version " ++ toString revision ++ " of " ++ path ++ ": " ++ cause.message
  | unitWithoutActiveVersion unit database =>
    "Storage unit " ++ unit ++ " of " ++ database ++ " has no active version"
  | generationNotAdvancing installed superseded =>
    "Installed generation " ++ toString installed ++ " does not advance past "
      ++ toString superseded
  | drainTimedOut url active =>
    "Closing data source " ++ url ++ " with " ++ toString active
      ++ " active connections after drain timeout"
  | closeFailed url cause => "Failed to close data source " ++ url ++ ": " ++ cause.message
  | openFailed unit cause => "Failed to open storage unit " ++ unit ++ ": " ++ cause.message
  | unitChangeFailed database cause =>
    "Storage unit change of " ++ database ++ " failed, closing new data sources: " ++ cause.message

end ClusterCatalog
