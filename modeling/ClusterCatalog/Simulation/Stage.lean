import ClusterCatalog.Cluster.Request
import ClusterCatalog.Simulation.Fault
import ClusterCatalog.Store.Item

/-!
# The stage

A `Stage` is a whole node with everything around it as plain data: the repository and the faults
injected into it, the current generation, the pools, a clock, and the retired pools that are being
drained. `Stage.answer` says how a request is answered when nothing has to be waited for; each
answer is total and depends on nothing but the stage.

The stage also keeps a journal of what has happened, and what the operator has kept at hand.
-/

namespace ClusterCatalog

/-- **A pool** of the stage. -/
structure Pool where
  unit : String
  url : String
  /-- Connections in use. -/
  active : Nat := 0
  closed : Bool := false
  /-- Whether closing it fails. -/
  stuck : Bool := false
deriving DecidableEq, Inhabited

/-- A call that changed the repository. -/
inductive Write where
  | persist (path : Path) (value : String)
  | delete (path : Path)
deriving DecidableEq

/-- What an observer was told: the database, the event, and whether the database had a node. -/
structure Notice where
  db : String
  event : DatabaseEvent
  existed : Bool
deriving DecidableEq

/-- **What has happened**, each kind of event in its order. -/
structure Journal where
  writes : List Write := []
  warnings : List Warning := []
  opened : List PoolId := []
  /-- The pools whose closing was tried, successful or not. -/
  closed : List PoolId := []
  notices : List Notice := []
deriving Inhabited

/-- What an operator keeps at hand between operations. -/
structure Notebook where
  /-- Switches that are still to be committed. -/
  switches : List PendingSwitch := []
  /-- The last diff that was worked out. -/
  diff : ResourceDiff := {}
  /-- Generations that were taken, the first one first. -/
  generations : List Generation := []
deriving Inhabited

/-- A pool that is being drained, with the number of the hand-over. -/
structure Handover where
  number : Nat
  drain : Drain
deriving DecidableEq, Inhabited

/-- **A node and its surroundings.** -/
structure Stage where
  repository : Repository
  faults : List Fault := []
  generation : Generation := {}
  /-- All pools that were ever opened; the number of a pool is its place. -/
  pools : List Pool := []
  /-- Places to which no pool can be opened, with the reasons. -/
  refusals : List (String × String) := []
  /-- Places to which opening a pool takes time, with that time. -/
  delays : List (String × Nat) := []
  /-- Whether no generation can be built. -/
  factoryFails : Bool := false
  /-- Whether the observer of the node replies with an error. -/
  observerFails : Bool := false
  clock : Nat := 0
  /-- Number of pools ever handed over. -/
  handedOver : Nat := 0
  handovers : List Handover := []
  journal : Journal := {}
  notebook : Notebook := {}
deriving Inhabited

namespace Stage

/-! ### Repository and log -/

/-- The stage with a call made: refused, or answered by the repository. -/
def call {α : Type} (s : Stage) (kind : CallKind) (path : Path) (answer : Repository → α)
    (change : Stage → Stage) : Except Error α × Stage :=
  let (refused, faults) := Fault.check kind path s.faults
  let s := { s with faults }
  if refused then (.error (Fault.rejection kind path), s)
  else (.ok (answer s.repository), change s)

/-- The stage with an entry in its journal. -/
def log (s : Stage) (entry : Journal → Journal) : Stage := { s with journal := entry s.journal }

/-- The stage with a write carried out. -/
def write (s : Stage) (w : Write) (repository : Repository) : Stage :=
  ({ s with repository } : Stage).log fun j => { j with writes := j.writes ++ [w] }

/-- The stage with a warning logged. -/
def warn (s : Stage) (w : Warning) : Stage :=
  s.log fun j => { j with warnings := j.warnings ++ [w] }

/-- How calls of the repository and warnings are answered. -/
def answerStore : (r : StoreRequest) → Stage → r.Reply × Stage
  | .persist path value, s =>
    s.call .persist path (fun _ => ()) fun s =>
      s.write (.persist path value) (s.repository.persist path value)
  | .query path, s => s.call .query path (·.query path) id
  | .children path, s => s.call .children path (·.children path) id
  | .delete path, s =>
    s.call .delete path (fun _ => ()) fun s => s.write (.delete path) (s.repository.delete path)
  | .warn w, s => ((), s.warn w)

/-! ### Pools -/

/-- How long opening a pool to a place takes. -/
def delayOf? (s : Stage) (url : String) : Option Nat :=
  (s.delays.find? fun d => d.1 == url).map (·.2)

/-- Opens a pool. -/
def openPool (s : Stage) (unit url : String) : PoolId × Stage :=
  (s.pools.length,
    ({ s with pools := s.pools ++ [{ unit, url }] } : Stage).log fun j =>
      { j with opened := j.opened ++ [s.pools.length] })

/-- Opens a pool, unless no pool can be opened to the place. -/
def tryOpenPool (s : Stage) (unit url : String) : Except Error PoolId × Stage :=
  match s.refusals.find? fun r => r.1 == url with
  | some refusal => (.error (.unitNotOpened unit refusal.2), s)
  | none =>
    let (pool, s) := s.openPool unit url
    (.ok pool, s)

/-- The stage with one pool changed. -/
def changePool (s : Stage) (pool : PoolId) (change : Pool → Pool) : Stage :=
  { s with pools := s.pools.modify pool change }

/-- Closes a pool, which fails if it is stuck. -/
def closePool (s : Stage) (pool : PoolId) : Except Error Unit × Stage :=
  let s := s.log fun j => { j with closed := j.closed ++ [pool] }
  match s.pools[pool]? with
  | some p =>
    if p.stuck then
      (.error (.poolNotClosed ("pool " ++ toString pool ++ " is stuck")), s)
    else (.ok (), s.changePool pool fun p => { p with closed := true })
  | none => (.ok (), s)

/-! ### Draining -/

/-- A hand-over whose pool is not closed yet. -/
def handover? (s : Stage) (number : Nat) : Option Handover :=
  s.handovers.find? fun h => h.number == number

/-- Hands one pool over to be drained. -/
def handOver (policy : DrainPolicy) (s : Stage) (pool : PoolId) : Stage :=
  { s with
    handedOver := s.handedOver + 1
    handovers := s.handovers ++ [⟨s.handedOver, .start policy s.clock pool⟩] }

/-- Hands pools over to be drained. -/
def retire (policy : DrainPolicy) (pools : List PoolId) (s : Stage) : Stage :=
  pools.foldl (handOver policy) s

/-- Closes a drained pool for good. -/
def finishDrain (s : Stage) (pool : PoolId) (url : String) : Stage :=
  match s.closePool pool with
  | (.ok (), s) => s
  | (.error e, s) => s.warn (.closeFailed url e)

/-- **Looks at a pool that is being drained.** -/
def lookAt (s : Stage) (h : Handover) : Stage :=
  let pool := (s.pools[h.drain.pool]?).getD default
  match h.drain.look s.clock pool.active with
  | .again next =>
    { s with
      handovers := s.handovers.map fun g =>
        if g.number = h.number then { g with drain := next } else g }
  | .close late =>
    let s := { s with handovers := s.handovers.filter fun g => g.number ≠ h.number }
    let s := if late then s.warn (.drainTimedOut pool.url pool.active) else s
    s.finishDrain h.drain.pool pool.url

/-! ### Generations -/

/-- Makes a generation the current one, and warns if it is not newer. -/
def install (s : Stage) (g : Generation) : Stage :=
  let replaced := { s with generation := g }
  if g.number ≤ s.generation.number then
    replaced.warn (.generationNotAdvancing g.number s.generation.number)
  else replaced

/-- Puts a database into the current generation. -/
def installDatabase (s : Stage) (d : Database) : Except Failure Generation × Stage :=
  match s.generation.succeededBy d with
  | .ok g => (.ok g, { s with generation := g })
  | .error f => (.error f, s)

/-- Builds the generation in which a database uses changed resources. -/
def build (s : Stage) (db : String) (isNew : Bool) (diff : ResourceDiff) (before : Generation) :
    Except Failure Generation :=
  if s.factoryFails then .error (.error (.internal "rule build failed"))
  else diff.rebuild db isNew before

/-- Tells the observer what happens to a database. -/
def announce (s : Stage) (db : String) (event : DatabaseEvent) : Except Error Unit × Stage :=
  let existed := (s.repository.query (Path.database db)).isSome
  (if s.observerFails then .error (.internal "notifier down") else .ok (),
    s.log fun j => { j with notices := j.notices ++ [⟨db, event, existed⟩] })

/-! ### Requests of an operation -/

/-- **How a request is answered without waiting**: a pool is opened at once, and the generation that
is waited for is the current one or does not come. -/
def answer : (r : ClusterRequest) → Stage → r.Reply × Stage
  | .store call, s => answerStore call s
  | .current, s => (s.generation, s)
  | .build db isNew diff before, s => (s.build db isNew diff before, s)
  | .openPool unit properties, s => s.tryOpenPool unit properties.url
  | .installDatabase database, s => s.installDatabase database
  | .awaitGeneration goal _, s =>
    (if goal.reachedBy s.generation then some s.generation else none, s)
  | .retire policy pools, s => ((), s.retire policy pools)
  | .announce db event, s => s.announce db event

end Stage

end ClusterCatalog
