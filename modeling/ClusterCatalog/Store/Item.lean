import ClusterCatalog.Store.Access

/-!
# Versioned items

A versioned item at a path keeps **revisions**, numbered texts that are written once, and a pointer
that names the active one. A writer adds a revision (`Item.stage`) and then moves the pointer
(`Item.commit`); moving the pointer is what makes the new text visible. Afterwards the revisions
below the new one are removed; if that fails, a warning is all that happens.

A new revision gets the number after the greatest one that is there, and the first one is revision
zero. An item without a pointer gets one with its first revision, so nothing is left to commit
for it.
-/

namespace ClusterCatalog

/-- The greatest revision number. -/
def maxRevision : Nat := 4294967295

/-- **A switch of the active revision** that is still to be committed. -/
structure PendingSwitch where
  path : Path
  /-- The revision that was active when the next one was written. -/
  current : Nat
  /-- The revision to become active. -/
  next : Nat
deriving DecidableEq, Inhabited

namespace PendingSwitch

/-- Whether committing changes anything. -/
def isRequired (s : PendingSwitch) : Bool := s.current != s.next

/-- The node of the pointer. -/
def activeVersionPath (s : PendingSwitch) : Path := Path.activeVersion s.path

/-- The node that holds the revisions. -/
def versionsPath (s : PendingSwitch) : Path := Path.versions s.path

/-- The node of a revision. -/
def versionPath (s : PendingSwitch) (revision : Nat) : Path := Path.version s.path revision

end PendingSwitch

/-- The revision number that a text names: an optional plus sign and decimal digits with a value in
range. Leading zeros are allowed. -/
def revisionOf? (text : String) : Option Nat :=
  let digits := match text.toList with
    | '+' :: digits => digits
    | digits => digits
  let value := Nat.ofDigitChars 10 digits 0
  if digits ≠ [] ∧ digits.all (·.isDigit) ∧ value ≤ maxRevision then some value else none

namespace Item

/-- The revision number that a text names, found at or below `path`. -/
def parseRevision (path : Path) (text : String) : Access Nat :=
  .ofExcept ((revisionOf? text).elim (.error (.invalidVersion path text)) .ok)

/-- The text of a revision. -/
def valueAt (path : Path) (revision : Nat) : Access (Option String) :=
  Access.query (Path.version path revision)

/-- **The revision numbers of an item.** More than two mean that old revisions were left behind;
they are reported, the newest first, and left in place. -/
def revisions (path : Path) : Access (List Nat) := do
  let names ← Access.children (Path.versions path)
  let found ← names.mapM (parseRevision (Path.versions path))
  if found.length > 2 then
    Access.warn (.manyVersions path)
    return found.mergeSort (fun a b => b ≤ a)
  return found

/-- The active revision of an item, none if it was never committed. -/
def active (path : Path) : Access (Option Nat) := do
  match ← Access.query (Path.activeVersion path) with
  | none => return none
  | some text =>
    if text = "" then return none
    return some (← parseRevision (Path.activeVersion path) text)

/-- **The text of the active revision.** -/
def activeValue (path : Path) : Access (Option String) := do
  match ← active path with
  | none => return none
  | some revision => valueAt path revision

/-- Removes the revisions below the new active one as far as possible. -/
def prune (s : PendingSwitch) : Access Unit := do
  match ← (revisions s.path).attempt with
  | .error e => Access.warn (.pruneListFailed s.path e)
  | .ok found =>
    (found.filter (· < s.next)).forM fun revision => do
      if let .error e ← (Access.delete (s.versionPath revision)).attempt then
        Access.warn (.pruneFailed revision s.path e)

/-- Commits one switch. -/
def commitOne (s : PendingSwitch) : Access Unit := do
  if s.isRequired then
    Access.persist s.activeVersionPath (toString s.next)
    prune s

/-- **Commits switches** in order. They are independent of each other: a pointer that cannot be
moved stops the batch, and the switches before it stay committed. -/
def commit (switches : List PendingSwitch) : Access Unit := switches.forM commitOne

/-- The number of the next revision after those that are there. -/
def nextRevision (found : List Nat) : Except Failure Nat :=
  match found.max? with
  | none => .ok 0
  | some latest => if latest < maxRevision then .ok (latest + 1) else .error .overflow

/-- **Writes a new revision** without making it the active one, unless there is none. -/
def stage (path : Path) (value : String) : Access PendingSwitch := do
  let next ← Plan.ofResult (nextRevision (← revisions path))
  Access.persist (Path.version path next) value
  match ← active path with
  | some current => return ⟨path, current, next⟩
  | none =>
    Access.persist (Path.activeVersion path) (toString next)
    return ⟨path, next, next⟩

/-- **Writes a new revision and commits it** right away. -/
def publish (path : Path) (value : String) : Access PendingSwitch := do
  let s ← stage path value
  commit [s]
  return s

end Item

end ClusterCatalog
