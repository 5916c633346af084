import ClusterCatalog.Admin.Tool

/-!
# The command line of the administration tool

Reads the file of the settings and the file of the repository, has one command carried out, writes
the repository back if it has changed, and prints. A repository is kept in a file as one object of
the texts of its nodes by path. A file that is not there stands for no settings and for an empty
repository.

The exit code is 0 if the command was carried out, 1 if it failed, 2 if the arguments were not
understood, and 101 if the run was broken off.
-/

namespace ClusterCatalog

namespace CommandLine

/-- How the tool is called. -/
def usage : String :=
  "usage: [--config FILE] [--backend memory|redb] [--store FILE] [--log-level LEVEL]"
    ++ " (ls PATH | get PATH | versions PATH | active PATH | activate PATH REVISION"
    ++ " | databases | units DATABASE)"

/-- The text of a file, if it can be read. -/
def readFile? (path : String) : IO (Option String) := do
  try return some (← IO.FS.readFile path)
  catch _ => return none

/-- Prints how a run ends, and gives the exit code. -/
def finish (outcome : Tool.Outcome) : IO UInt32 := do
  outcome.lines.forM fun line => IO.println line
  outcome.report?.forM fun report => IO.eprintln report
  return UInt32.ofNat outcome.exitCode

/-- The repository that a file holds, none if the file holds something else. -/
def repositoryOf? : Option String → Option Repository
  | none => some (.file .empty)
  | some text => (Codec.read? text : Option (SortedMap String)).map fun rows => .file ⟨rows⟩

/-- Carries a command out on the repository of the settings. -/
def carryOut (s : Settings) (command : Command) : IO UInt32 := do
  let path := s.repository.path
  let kept ← match s.repository.backend with
    | .memory => pure none
    | .file => readFile? path
  match repositoryOf? kept with
  | none => finish (.failed ("failed to open " ++ path))
  | some stored =>
    let (outcome, changed) := Tool.run s command stored
    if changed ≠ stored then
      IO.FS.writeFile path (Codec.write changed.nodes)
    finish outcome

end CommandLine

end ClusterCatalog

open ClusterCatalog in
/-- Runs the tool with the arguments of the command line. -/
def main (arguments : List String) : IO UInt32 := do
  match Arguments.read arguments with
  | none =>
    IO.eprintln CommandLine.usage
    CommandLine.finish .misused
  | some a =>
    match Tool.settings a (← CommandLine.readFile? (a.config.getD Arguments.defaultConfig)) with
    | .error defect => CommandLine.finish (.ofDefect defect)
    | .ok s => CommandLine.carryOut s a.command
