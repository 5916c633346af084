import ClusterCatalog.Catalog.Settings
import ClusterCatalog.Cluster.Resource

/-!
# Draining retired pools

A pool that is no longer used by any generation is closed in the background. As long as connections
of it are in use, it is left alone; it is looked at again and again, and when the time is up it is
closed even so. It is closed once.
-/

namespace ClusterCatalog

/-- **How retired pools are drained.** -/
structure DrainPolicy where
  /-- Time between two looks at the connections of a pool. -/
  pollIntervalMs : Nat
  /-- Time after which a pool is closed whatever its connections. -/
  timeoutMs : Nat
deriving DecidableEq, Inhabited

/-- The policy of the settings. -/
def DrainPolicy.ofSettings (s : PoolSettings) : DrainPolicy :=
  ⟨s.drainPollIntervalMs, s.drainTimeoutMs⟩

/-- **A pool that is being drained.** -/
structure Drain where
  pool : PoolId
  /-- Time of the next look. -/
  due : Nat
  /-- Time from which on the pool is closed whatever its connections. -/
  deadline : Nat
  pollIntervalMs : Nat
deriving DecidableEq, Inhabited

/-- What a look at a pool leads to. -/
inductive Drain.Verdict where
  /-- The pool is closed; `late` tells that its connections are cut off. -/
  | close (late : Bool)
  /-- The pool is looked at again. -/
  | again (next : Drain)
deriving DecidableEq

namespace Drain

/-- A pool that is retired at a time is looked at right away. -/
def start (policy : DrainPolicy) (now : Nat) (pool : PoolId) : Drain :=
  { pool, due := now, deadline := now + policy.timeoutMs, pollIntervalMs := policy.pollIntervalMs }

/-- **One look** at a pool with the given number of connections in use. -/
def look (d : Drain) (now active : Nat) : Verdict :=
  if active = 0 then .close false
  else if d.deadline ≤ now then .close true
  else .again { d with due := now + d.pollIntervalMs }

end Drain

end ClusterCatalog
