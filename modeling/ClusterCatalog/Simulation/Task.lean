import ClusterCatalog.Simulation.Stage

/-!
# Scripts and tasks

A script is what an operator does with a stage: the operations of a node, looks at the stage and
changes to it from outside, and waiting. `Script.advance` carries a script out up to the point where
it has to wait; what is left is a `Task`, which knows what it waits for and how to go on.
-/

namespace ClusterCatalog

/-- **What a script can ask for.** -/
inductive StageRequest where
  /-- A request of an operation on the node. -/
  | cluster (r : ClusterRequest)
  /-- The whole stage as it is now. -/
  | inspect
  /-- A change of the stage from outside. -/
  | amend (change : Stage → Stage)
  /-- Waiting for some time. -/
  | sleep (ms : Nat)
  /-- Waiting until the pools of the given hand-overs are closed. -/
  | join (handovers : List Nat)

/-- What is replied to a request. -/
abbrev StageRequest.Reply : StageRequest → Type
  | cluster r => r.Reply
  | inspect => Stage
  | amend _ => Unit
  | sleep _ => Unit
  | join _ => Unit

/-- A stage. -/
abbrev stageInterface : Interface := ⟨StageRequest, StageRequest.Reply⟩

/-- **What an operator does with a stage.** -/
abbrev Script (α : Type) := Plan stageInterface α

namespace Script

/-- An operation on the node. -/
def operate {α : Type} (p : Cluster α) : Script α :=
  p.embed (J := stageInterface) StageRequest.cluster fun _ reply => reply

/-- An operation on the repository of the node. -/
def access {α : Type} (p : Access α) : Script α := operate (Cluster.access p)

/-- The stage as it is now. -/
def inspect : Script Stage := .request (I := stageInterface) .inspect

/-- Changes the stage from outside. -/
def amend (change : Stage → Stage) : Script Unit :=
  .request (I := stageInterface) (.amend change)

/-- Changes what the operator keeps at hand. -/
def note (change : Notebook → Notebook) : Script Unit :=
  amend fun s => { s with notebook := change s.notebook }

/-- Waits for some time. -/
def sleep (ms : Nat) : Script Unit := .request (I := stageInterface) (.sleep ms)

/-- Waits until the pools of hand-overs are closed. -/
def join (handovers : List Nat) : Script Unit :=
  .request (I := stageInterface) (.join handovers)

end Script

/-- **What a script under way waits for**, and how it goes on. -/
inductive Task (α : Type) where
  /-- Nothing but its turn. -/
  | ready (script : Script α)
  /-- A time. -/
  | sleeps (till : Nat) (next : Script α)
  /-- The time at which a pool can be opened. -/
  | opens (till : Nat) (unit : String) (properties : PoolProperties)
    (next : Except Error PoolId → Script α)
  /-- A generation, but not longer than until a time. -/
  | awaits (goal : Goal) (till : Nat) (next : Option Generation → Script α)
  /-- The closing of the pools of hand-overs. -/
  | joins (handovers : List Nat) (next : Script α)

/-- Where a script has come to. -/
inductive Course (α : Type) where
  | waits (task : Task α)
  | ends (result : Except Failure α)

variable {α : Type}

/-- **Carries a script out** until it has to wait or ends. Waiting for no time is no waiting. -/
def Script.advance : Script α → Stage → Course α × Stage
  | .done a, s => (.ends (.ok a), s)
  | .stop f, s => (.ends (.error f), s)
  | .ask .inspect next, s => advance (next s) s
  | .ask (.amend change) next, s => advance (next ()) (change s)
  | .ask (.sleep ms) next, s =>
    if ms = 0 then advance (next ()) s else (.waits (.sleeps (s.clock + ms) (next ())), s)
  | .ask (.join handovers) next, s => (.waits (.joins handovers (next ())), s)
  | .ask (.cluster (.openPool unit properties)) next, s =>
    let ms := (s.delayOf? properties.url).getD 0
    if ms = 0 then
      let (reply, s) := s.answer (.openPool unit properties)
      advance (next reply) s
    else (.waits (.opens (s.clock + ms) unit properties next), s)
  | .ask (.cluster (.awaitGeneration goal timeoutMs)) next, s =>
    if goal.reachedBy s.generation ∨ timeoutMs = 0 then
      let (reply, s) := s.answer (.awaitGeneration goal timeoutMs)
      advance (next reply) s
    else (.waits (.awaits goal (s.clock + timeoutMs) next), s)
  | .ask (.cluster r) next, s =>
    let (reply, s) := s.answer r
    advance (next reply) s

namespace Task

/-- Whether a task need not wait any longer. -/
def canGoOn (s : Stage) : Task α → Bool
  | ready _ => true
  | sleeps till _ => till ≤ s.clock
  | opens till _ _ _ => till ≤ s.clock
  | awaits goal till _ => goal.reachedBy s.generation || till ≤ s.clock
  | joins handovers _ => !s.handovers.any fun h => handovers.contains h.number

/-- The time from which on a task need not wait, whatever happens until then. -/
def wakeTime? : Task α → Option Nat
  | sleeps till _ => some till
  | opens till _ _ _ => some till
  | awaits _ till _ => some till
  | _ => none

/-- **Carries a task on** that need not wait any longer. -/
def resume (s : Stage) : Task α → Course α × Stage
  | ready script => script.advance s
  | sleeps _ next => next.advance s
  | opens _ unit properties next =>
    let (reply, s) := s.answer (.openPool unit properties)
    (next reply).advance s
  | awaits goal till next =>
    let (reply, s) := s.answer (.awaitGeneration goal (till - s.clock))
    (next reply).advance s
  | joins _ next => next.advance s

end Task

end ClusterCatalog
