import ClusterCatalog.Error
import ClusterCatalog.Tree.Path

/-!
# Injected faults

A fault makes some calls of a repository fail. It sees the calls of one kind whose path contains a
text, lets the first ones pass, refuses the next ones, and lets all others pass. Faults are asked in
order; the ones after a fault that refuses a call do not see it.
-/

namespace ClusterCatalog

/-- The kinds of calls of a repository. -/
inductive CallKind where
  | persist
  | query
  | children
  | delete
deriving DecidableEq, Inhabited

/-- The name of a kind of calls. -/
def CallKind.name : CallKind → String
  | persist => "persist"
  | query => "query"
  | children => "children"
  | delete => "delete"

/-- Whether a list of characters occurs in another one. -/
def occursIn (part : List Char) : List Char → Bool
  | [] => part.isEmpty
  | c :: cs => part.isPrefixOf (c :: cs) || occursIn part cs

/-- **An injected fault.** -/
structure Fault where
  kind : CallKind
  /-- What the path of a call contains if the fault sees the call. -/
  part : String
  /-- How many of the calls that it sees still pass. -/
  skip : Nat := 0
  /-- How many of the calls after those it refuses, all of them if there is no number. -/
  times : Option Nat := none
deriving DecidableEq, Inhabited

namespace Fault

/-- Whether a fault sees a call. -/
def sees (f : Fault) (kind : CallKind) (path : Path) : Bool :=
  f.kind == kind && occursIn f.part.toList path.toList

/-- A fault after it has let a call pass. -/
def passed (f : Fault) : Fault := { f with skip := f.skip - 1 }

/-- A fault after it has refused a call. -/
def refused (f : Fault) : Fault := { f with times := f.times.map (· - 1) }

/-- Whether a fault refuses the next call that it sees. -/
def isDue (f : Fault) : Bool := f.skip == 0 && f.times != some 0

/-- **Whether a call is refused**, and the faults after it. -/
def check (kind : CallKind) (path : Path) : List Fault → Bool × List Fault
  | [] => (false, [])
  | f :: later =>
    if f.sees kind path then
      if f.isDue then (true, f.refused :: later)
      else ((check kind path later).1, f.passed :: (check kind path later).2)
    else ((check kind path later).1, f :: (check kind path later).2)

/-- The error of a refused call. -/
def rejection (kind : CallKind) (path : Path) : Error :=
  .repository (kind.name ++ " rejected: " ++ path)

end Fault

end ClusterCatalog
