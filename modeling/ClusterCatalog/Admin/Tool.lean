import ClusterCatalog.Admin.Arguments
import ClusterCatalog.SettingsFile.Load
import ClusterCatalog.Store.Schemas
import ClusterCatalog.Store.Units

/-!
# The administration tool

The tool looks into a repository and moves pointers by hand. `Command.run` is the work of one
command, and `Tool.run` is a whole run: settings from the file and the options, a repository that is
the stored one or, with the memory backend, an empty one that is forgotten afterwards, and the lines
to be printed.
-/

namespace ClusterCatalog

namespace Command

/-- **The work of a command**: the lines to be printed, or what is wrong with the request. -/
def run : Command → Access (Except String (List String))
  | ls path => .ok <$> Access.children path
  | get path => do
    match ← Access.query path with
    | some value => return .ok [value]
    | none => return .error (path ++ " does not exist")
  | versions path => do return .ok ((← Item.revisions path).map toString)
  | active path => do
    match ← Item.active path with
    | none => return .error (path ++ " has no active version")
    | some revision =>
      let value ← Item.valueAt path revision
      return .ok [toString revision ++ ": " ++ value.getD ""]
  | activate path revision => do
    match ← Item.valueAt path revision with
    | none => return .error (path ++ " has no revision " ++ toString revision)
    | some _ =>
      let current := (← Item.active path).getD revision
      Item.commit [⟨path, current, revision⟩]
      return .ok [path ++ ": " ++ toString current ++ " -> " ++ toString revision]
  | databases => .ok <$> Stored.databaseNames
  | units db => do
    return .ok ((← Stored.loadUnits db).entries.map fun e => e.1 ++ ": " ++ Codec.write e.2)

end Command

namespace Tool

/-- **How a run of the tool ends.** -/
inductive Outcome where
  /-- The lines to be printed. -/
  | printed (lines : List String)
  /-- The report of what went wrong. -/
  | failed (report : String)
  /-- The arguments were not understood. -/
  | misused
  /-- The run was broken off without a report. -/
  | broken
deriving DecidableEq

namespace Outcome

/-- The exit code of the tool. -/
def exitCode : Outcome → Nat
  | printed _ => 0
  | failed _ => 1
  | misused => 2
  | broken => 101

/-- What is printed, a line at a time. -/
def lines : Outcome → List String
  | printed lines => lines
  | _ => []

/-- The report of what went wrong, if there is one. -/
def report? : Outcome → Option String
  | failed report => some ("Error: " ++ report)
  | _ => none

/-- The outcome of a run whose file gives no settings. -/
def ofDefect : SettingsFile.Defect → Outcome
  | .malformed => failed "failed to read configuration"
  | .invalid => failed "invalid configuration"
  | .outOfReach => broken

/-- The outcome of a command. -/
def ofResult : Except Failure (Except String (List String)) → Outcome
  | .ok (.ok lines) => printed lines
  | .ok (.error report) => failed report
  | .error (.error e) => failed e.message
  | .error .overflow => broken

end Outcome

/-- The settings of a run, from the text of the file, if there is one, and the options. -/
def settings (a : Arguments) (file : Option String) : Except SettingsFile.Defect Settings := do
  let s ← SettingsFile.load (file.getD "")
  return { s with
    repository :=
      { backend := a.backend.getD s.repository.backend
        path := a.store.getD s.repository.path }
    log := { s.log with level := a.logLevel.getD s.log.level } }

/-- **One run** with the given settings on the stored repository, and the repository after it. -/
def run (s : Settings) (command : Command) (stored : Repository) : Outcome × Repository :=
  match s.repository.backend with
  | .memory => (.ofResult (command.run.run Repository.answer (.memory .empty)).1, stored)
  | .file =>
    let (result, stored) := command.run.run Repository.answer stored
    (.ofResult result, stored)

/-- **A call of the tool** with the given arguments and the text of the file of the settings, on the
stored repository. -/
def call (arguments : List String) (file : Option String) (stored : Repository) :
    Outcome × Repository :=
  match Arguments.read arguments with
  | none => (.misused, stored)
  | some a =>
    match settings a file with
    | .error defect => (.ofDefect defect, stored)
    | .ok s => run s a.command stored

/-- The first line of a report. -/
def firstLine (report : String) : String :=
  let line := report.toList.takeWhile (· != '\n')
  String.ofList (if line.getLast? = some '\r' then line.dropLast else line)

end Tool

end ClusterCatalog
