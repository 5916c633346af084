import ClusterCatalog.Catalog.Settings
import ClusterCatalog.SettingsFile.Setting

/-!
# What settings stand for

A setting is converted to the type of the field it is for, where that makes sense: a text that
names a number is that number, a number is also a text, and `yes`, `no`, `on` and `off` are truth
values. A group of fields is a table by the names of the fields, or a list in their order; what is
left out has its default, and what is not a field is passed over.
-/

namespace ClusterCatalog

namespace Setting

/-! ### Single values -/

/-- A text, or a single value written as one. -/
def asText? : Setting → Option String
  | .text s => some s
  | .integer i => some (toString i)
  | .real x => some x.written
  | .flag b => some (toString b)
  | .absent | .list _ | .table _ => none

/-- The truth value of a word, whose letters may be capital ones. -/
def flagOf? (word : String) : Option Bool :=
  if word.toLower ∈ ["true", "on", "yes"] then some true
  else if word.toLower ∈ ["false", "off", "no"] then some false
  else none

/-- A truth value, or a value that stands for one: of the numbers, zero is false. -/
def asFlag? : Setting → Option Bool
  | .flag b => some b
  | .integer i => some (i ≠ 0)
  | .real x => some !x.isZero
  | .text s => if s = "1" then some true else if s = "0" then some false else flagOf? s
  | .absent | .list _ | .table _ => none

/-- A decimal number of 64 bits without sign; a plus may be written. -/
def wordOf? (text : String) : Option Nat :=
  let digits := match text.toList with
    | '+' :: digits => digits
    | digits => digits
  let value := Nat.ofDigitChars 10 digits 0
  if digits ≠ [] ∧ digits.all Char.isDigit ∧ value ≤ Floating.maxWord then some value else none

/-- A number of milliseconds, or a value that stands for one. -/
def asWord? : Setting → Option Nat
  | .integer i => if 0 ≤ i then some i.toNat else none
  | .flag b => some b.toNat
  | .real x => some x.toWord
  | .text s => ((flagOf? s).map Bool.toNat).or (wordOf? s)
  | .absent | .list _ | .table _ => none

/-- A backend, whose name may have capital letters: a text, or a table whose only member has the
name. -/
def asBackend? : Setting → Option Backend
  | .text s => Backend.ofName? s.toLower
  | .table [(name, _)] => Backend.ofName? name.toLower
  | _ => none

/-! ### Groups of fields -/

/-- **A field of a group**, converted; none if the setting is no group or the field cannot be
converted. -/
def field {α : Type} (name : String) (position : Nat) (convert : Setting → Option α)
    (default : α) : Setting → Option α
  | .table members => (members.lookup name).elim (some default) convert
  | .list items => items[position]?.elim (some default) convert
  | _ => none

/-- Which repository is opened. -/
def asRepository? (group : Setting) : Option RepositorySettings := do
  let base : RepositorySettings := {}
  some
    { backend := ← group.field "backend" 0 asBackend? base.backend
      path := ← group.field "path" 1 asText? base.path }

/-- How long a rule change waits. -/
def asCluster? (group : Setting) : Option ClusterSettings := do
  let base : ClusterSettings := {}
  some { reloadTimeoutMs := ← group.field "reload_timeout_ms" 0 asWord? base.reloadTimeoutMs }

/-- How retired pools are drained. -/
def asPool? (group : Setting) : Option PoolSettings := do
  let base : PoolSettings := {}
  some
    { drainPollIntervalMs :=
        ← group.field "drain_poll_interval_ms" 0 asWord? base.drainPollIntervalMs
      drainTimeoutMs := ← group.field "drain_timeout_ms" 1 asWord? base.drainTimeoutMs }

/-- What is logged and how. -/
def asLog? (group : Setting) : Option LogSettings := do
  let base : LogSettings := {}
  some
    { level := ← group.field "level" 0 asText? base.level
      json := ← group.field "json" 1 asFlag? base.json }

/-- **The settings of a node.** -/
def asSettings? (group : Setting) : Option Settings := do
  some
    { repository := ← group.field "repository" 0 asRepository? {}
      cluster := ← group.field "cluster" 1 asCluster? {}
      pool := ← group.field "pool" 2 asPool? {}
      log := ← group.field "log" 3 asLog? {} }

end Setting

end ClusterCatalog
