import ClusterCatalog.Simulation.Task

/-!
# Sessions

In a session, scripts and the draining of retired pools take turns on one stage. One party has its
turn at a time and keeps it until it has to wait. A party that need not wait any longer lines up
behind those that are ready, and of several such parties the one that has waited longest comes
first. Only when nobody is ready does the clock move, straight to the next time at which somebody
can go on. So time passes only by waiting, and the same session always takes the same course.

A round of a session starts some scripts and lasts until they have ended and nobody can go on
without the clock moving. Scripts that are started along with them may outlast the round.
-/

namespace ClusterCatalog

/-- **Who takes turns** in a session. -/
inductive Party (α : Type) where
  /-- A script. If the round is to give its result, it has a place among the results. -/
  | script (place : Option Nat) (task : Task α)
  /-- The draining of the pool of a hand-over. -/
  | drain (handover : Nat)

/-- **Parties that share a stage.** -/
structure Session (α : Type) where
  stage : Stage
  /-- The results of the scripts of the round that have ended, with their places. -/
  results : List (Nat × Except Failure α) := []
  /-- The parties that are ready, in the order of their turns. -/
  ready : List (Party α) := []
  /-- The parties that wait, in the order in which they began to. -/
  waiting : List (Party α) := []

namespace Party

variable {α : Type}

/-- Whether a party need not wait any longer. -/
def canGoOn (s : Stage) : Party α → Bool
  | script _ task => task.canGoOn s
  | drain number => (s.handover? number).all fun h => h.drain.due ≤ s.clock

/-- The time from which on a party need not wait, whatever happens until then. -/
def wakeTime? (s : Stage) : Party α → Option Nat
  | script _ task => task.wakeTime?
  | drain number => (s.handover? number).map fun h => h.drain.due

/-- A party whose result is not read any more. -/
def unread : Party α → Party α
  | script _ task => script none task
  | drain number => drain number

end Party

namespace Session

variable {α : Type}

/-! ### Turns -/

/-- The parties that need not wait any longer line up. -/
def wake (s : Session α) : Session α :=
  { s with
    ready := s.ready ++ s.waiting.filter fun p => p.canGoOn s.stage
    waiting := s.waiting.filter fun p => !p.canGoOn s.stage }

/-- The draining of pools that were handed over since a count of hand-overs lines up. -/
def takeUp (count : Nat) (s : Session α) : Session α :=
  { s with
    ready := s.ready ++ (s.stage.handovers.filter fun h => count ≤ h.number).map
      fun h => .drain h.number }

/-- A party waits. -/
def putBack (s : Session α) (p : Party α) : Session α := { s with waiting := s.waiting ++ [p] }

/-- **The turn of a party**, before others react to it. -/
def act (s : Session α) : Party α → Session α
  | .script place task =>
    if !task.canGoOn s.stage then s.putBack (.script place task)
    else
      let (course, stage) := task.resume s.stage
      match course with
      | .waits task => { s with stage }.putBack (.script place task)
      | .ends result =>
        { s with stage, results := s.results ++ (place.map fun n => (n, result)).toList }
  | .drain number =>
    match s.stage.handover? number with
    | none => s
    | some h =>
      let stage := s.stage.lookAt h
      if (stage.handover? number).isSome then { s with stage }.putBack (.drain number)
      else { s with stage }

/-- The turn of the first party that is ready, and what it makes others do. -/
def turn (s : Session α) (p : Party α) : Session α :=
  ((s.act p).wake).takeUp s.stage.handedOver

/-! ### Rounds -/

/-- The next time at which a party can go on. -/
def nextTime? (s : Session α) : Option Nat :=
  (s.waiting.filterMap fun p => p.wakeTime? s.stage).min?

/-- The clock moves. -/
def moveClock (s : Session α) (time : Nat) : Session α :=
  { s with stage := { s.stage with clock := time } }.wake

/-- **Goes on** until the given number of results is there and nobody is ready, in at most the given
number of turns. -/
def goOn (count : Nat) : Nat → Session α → Session α
  | 0, s => s
  | turns + 1, s =>
    match s.ready with
    | p :: ready => goOn count turns ({ s with ready }.turn p)
    | [] =>
      if count ≤ s.results.length then s
      else match s.nextTime? with
        | some time => goOn count turns (s.moveClock time)
        | none => s

/-- How many turns a round may take. -/
def maxTurns : Nat := 4000000

/-- **One round**: the given scripts start in order, and others along with them after some time.
Gives the results of the scripts, and what was journaled is left in the stage. -/
def round (scripts : List (Script α)) (others : List (Nat × Script α)) (s : Session α) :
    List (Option (Except Failure α)) × Session α :=
  let main := scripts.zipIdx.map fun p => Party.script (some p.2) (.ready p.1)
  let later := others.map fun o =>
    Party.script none (.ready (Plan.bind (Script.sleep o.1) fun _ => o.2))
  let s := goOn scripts.length maxTurns
    { s with
      stage := { s.stage with journal := {} }
      results := []
      ready := s.ready ++ main ++ later }
  ((List.range scripts.length).map fun n => (s.results.find? fun r => r.1 == n).map (·.2),
    { s with ready := s.ready.map Party.unread, waiting := s.waiting.map Party.unread })

end Session

end ClusterCatalog
