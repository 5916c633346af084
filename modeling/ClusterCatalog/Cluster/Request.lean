import ClusterCatalog.Cluster.Diff
import ClusterCatalog.Cluster.Drain
import ClusterCatalog.Store.Access
import ClusterCatalog.Store.Coordinator

/-!
# Operations on a node

An operation on a running node does more than call the repository: it looks at the current
generation, builds and installs other ones, opens pools and hands retired ones over, and waits.
`ClusterRequest` lists what it can ask for; a `Cluster` operation is a plan of these requests.

Two requests take time: opening a pool and waiting for a generation. At these two an operation can
be overtaken by others; between them it runs alone.
-/

namespace ClusterCatalog

/-- **What a waiting operation waits for.** -/
inductive Goal where
  /-- A generation with a number above the given one. -/
  | newerThan (number : Nat)
  /-- A generation that has a database. -/
  | hasDatabase (db : String)
  /-- A generation with a number above the given one in which a database has the given rules. -/
  | reloaded (db : String) (rules : RuleSet) (number : Nat)

/-- Whether a generation is what is waited for. -/
def Goal.reachedBy (g : Generation) : Goal → Bool
  | newerThan number => number < g.number
  | hasDatabase db => g.databases.contains db
  | reloaded db rules number =>
    number < g.number && (g.databases.get? db).any fun d => d.rules == rules

/-- **What an operation on a node can ask for.** -/
inductive ClusterRequest where
  /-- A call of the repository, or a warning. -/
  | store (call : StoreRequest)
  /-- The current generation. -/
  | current
  /-- Builds the generation in which a database uses changed resources. -/
  | build (db : String) (isNew : Bool) (diff : ResourceDiff) (before : Generation)
  /-- Opens the pool of a storage unit; takes time. -/
  | openPool (unit : String) (properties : PoolProperties)
  /-- Puts a database into whatever generation is current, and makes the result current. -/
  | installDatabase (database : Database)
  /-- Waits until the current generation is the one sought, but not longer than the given time. -/
  | awaitGeneration (goal : Goal) (timeoutMs : Nat)
  /-- Hands retired pools over to be drained. -/
  | retire (policy : DrainPolicy) (pools : List PoolId)
  /-- Tells an observer of the node what happens to a database. -/
  | announce (db : String) (event : DatabaseEvent)

/-- What is replied to a request. -/
abbrev ClusterRequest.Reply : ClusterRequest → Type
  | store call => call.Reply
  | current => Generation
  | build .. => Except Failure Generation
  | openPool .. => Except Error PoolId
  | installDatabase _ => Except Failure Generation
  | awaitGeneration .. => Option Generation
  | retire .. => Unit
  | announce .. => Except Error Unit

/-- A running node. -/
abbrev clusterInterface : Interface := ⟨ClusterRequest, ClusterRequest.Reply⟩

/-- **An operation on a node.** -/
abbrev Cluster (α : Type) := Plan clusterInterface α

namespace Cluster

/-- An operation on the repository of the node. -/
def access {α : Type} (p : Access α) : Cluster α :=
  p.embed (J := clusterInterface) ClusterRequest.store fun _ reply => reply

/-- Logs a warning. -/
def warn (warning : Warning) : Cluster Unit := access (Access.warn warning)

/-- The current generation. -/
def current : Cluster Generation := .request (I := clusterInterface) .current

/-- Builds the generation in which a database uses changed resources. -/
def build (db : String) (isNew : Bool) (diff : ResourceDiff) (before : Generation) :
    Cluster Generation :=
  .ask (.build db isNew diff before) fun reply => .ofResult reply

/-- Opens the pool of a storage unit, or tells why it cannot be opened. -/
def openPool (unit : String) (properties : PoolProperties) : Cluster (Except Error PoolId) :=
  .request (I := clusterInterface) (.openPool unit properties)

/-- Puts a database into the current generation and gives the one that is current then. -/
def installDatabase (database : Database) : Cluster Generation :=
  .ask (.installDatabase database) fun reply => .ofResult reply

/-- Waits for a generation, which is none if the time is up before. -/
def awaitGeneration (goal : Goal) (timeoutMs : Nat) : Cluster (Option Generation) :=
  .request (I := clusterInterface) (.awaitGeneration goal timeoutMs)

/-- Hands retired pools over to be drained. -/
def retire (policy : DrainPolicy) (pools : List PoolId) : Cluster Unit :=
  .request (I := clusterInterface) (.retire policy pools)

/-- Tells an observer of the node what happens to a database. -/
def announce (db : String) (event : DatabaseEvent) : Cluster Unit :=
  .ask (.announce db event) fun reply => .ofExcept reply

end Cluster

end ClusterCatalog
