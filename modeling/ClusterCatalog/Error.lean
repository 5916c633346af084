/-!
# Causes of failure

Every administrative operation either yields its result or stops for one reason. The reasons an
operator can meet are the constructors of `Error`; `Error.message` is the only place where they are
put into words. Some operations can also stop because a counter has no successor: that is
`Failure.overflow`, which no operation catches and which has no wording.

* `Error.isRetryable` — repeating the same call may succeed: writing the same values again reaches
  the same state, so a store that refused a call and a reload that came too late are safe to retry.
* `Error.isNotFound` — the call names something that does not exist.
-/

namespace ClusterCatalog

/-- **Why an operation failed.** Every failure belongs to the one operation that met it. -/
inductive Error where
  /-- The repository refused or could not carry out a call. -/
  | repository (reason : String)
  /-- A name below `path` that should be a revision number is not one. -/
  | invalidVersion (path value : String)
  /-- Any other reason why a text cannot be taken as a value. -/
  | serialization (reason : String)
  /-- A text is not the written form of a value of the expected type. -/
  | malformedText
  /-- The text of one item of a stored rule is not a written value. -/
  | malformedItem (rule item : String)
  /-- A stored notification names no known database event. -/
  | unknownEvent (text : String)
  | databaseNotFound (database : String)
  | schemaNotFound (database schema : String)
  | ruleNotFound (database rule : String)
  /-- The pool of a storage unit could not be opened. -/
  | unitNotOpened (unit reason : String)
  /-- A data source could not be closed. -/
  | poolNotClosed (reason : String)
  /-- The storage units to be registered already exist. -/
  | duplicateUnits (units : List String)
  /-- No reloaded generation appeared within the waiting time. -/
  | reloadTimeout (database : String) (waitedMs : Nat)
  | configuration (reason : String)
  | internal (reason : String)
deriving DecidableEq, Inhabited

namespace Error

/-- The text of an error, as operators and logs see it. -/
def message : Error → String
  | repository reason => "repository error: " ++ reason
  | invalidVersion path value => "invalid version '" ++ value ++ "' under " ++ path
  | serialization reason => "serialization error: " ++ reason
  | malformedText => "serialization error"
  | malformedItem rule item => "serialization error: rule " ++ rule ++ " item " ++ item
  | unknownEvent text => "serialization error: unknown database listener event: " ++ text
  | databaseNotFound database => "database not found: " ++ database
  | schemaNotFound database schema => "schema not found: " ++ database ++ "." ++ schema
  | ruleNotFound database rule => "rule '" ++ rule ++ "' not found in database " ++ database
  | unitNotOpened unit reason => "failed to open storage unit " ++ unit ++ ": " ++ reason
  | poolNotClosed reason => "failed to close data source: " ++ reason
  | duplicateUnits units => "storage units already registered: " ++ String.intercalate ", " units
  | reloadTimeout database waitedMs =>
    "database " ++ database ++ " was not reloaded within " ++ toString waitedMs ++ " ms"
  | configuration reason => "configuration error: " ++ reason
  | internal reason => "internal error: " ++ reason

/-- Whether the failed call may be repeated as it is. -/
def isRetryable : Error → Bool
  | repository _ | reloadTimeout _ _ => true
  | _ => false

/-- Whether the call named something that does not exist. -/
def isNotFound : Error → Bool
  | databaseNotFound _ | schemaNotFound _ _ | ruleNotFound _ _ => true
  | _ => false

end Error

/-- **How an operation stops early**: with an error, or because a revision or generation number
would leave its range. Only errors can be caught. -/
inductive Failure where
  | error (cause : Error)
  | overflow
deriving DecidableEq

end ClusterCatalog
