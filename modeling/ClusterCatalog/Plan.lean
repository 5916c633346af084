import ClusterCatalog.Error

/-!
# Operations as plans

An operation does not act by itself: it is a **plan** that asks for one thing at a time, gets a
reply and goes on, until it is done or stops. What can be asked, and what the reply looks like, is
an `Interface`. A plan is a finite tree with one branch for each possible reply, so the same operation
can be carried out on a plain tree of nodes, on one where any call may be refused, or among other
operations with which it shares a clock, and a law about all replies is proved by induction on the
plan.

* `Plan.run` carries a plan out where every request is answered at once.
* `Plan.embed` makes a plan part of operations that can ask for more.
* `Plan.attempt` turns an error into a result; an overflow is never caught.
* `Plan.Uses` holds of a plan that asks only for what a predicate allows, whatever the replies.
-/

namespace ClusterCatalog

/-- **What can be asked**, and the type of the reply to each request. -/
structure Interface where
  Request : Type
  Reply : Request → Type

/-- **A plan** with results in `α`. -/
inductive Plan (I : Interface) (α : Type) where
  /-- Nothing is left to do. -/
  | done (result : α)
  /-- The operation stops early. -/
  | stop (failure : Failure)
  /-- A request, and how to go on after each reply. -/
  | ask (request : I.Request) (next : I.Reply request → Plan I α)

namespace Plan

variable {I J : Interface} {α β : Type}

/-- One plan after the other, if the first one is done. -/
def bind : Plan I α → (α → Plan I β) → Plan I β
  | done a, f => f a
  | stop e, _ => stop e
  | ask r k, f => ask r fun reply => (k reply).bind f

instance : Monad (Plan I) where
  pure := done
  bind := bind

/-- The plan that fails. -/
def fail (e : Error) : Plan I α := stop (.error e)

/-- The plan of one request. -/
def request (r : I.Request) : Plan I (I.Reply r) := ask r done

/-- A result that may be an error. -/
def ofExcept : Except Error α → Plan I α
  | .ok a => done a
  | .error e => fail e

/-- A result that may be a failure. -/
def ofResult : Except Failure α → Plan I α
  | .ok a => done a
  | .error f => stop f

/-- The plan with its error as a result. -/
def attempt : Plan I α → Plan I (Except Error α)
  | done a => done (.ok a)
  | stop (.error e) => done (.error e)
  | stop .overflow => stop .overflow
  | ask r k => ask r fun reply => (k reply).attempt

/-- The same plan through another interface, whose requests contain those of the plan. -/
def embed (toRequest : I.Request → J.Request) (reply : ∀ r, J.Reply (toRequest r) → I.Reply r) :
    Plan I α → Plan J α
  | done a => done a
  | stop f => stop f
  | ask r k => ask (toRequest r) fun answer => (k (reply r answer)).embed toRequest reply

/-- **Carries a plan out** where each request is answered at once from a state. -/
def run {σ : Type} (answer : (r : I.Request) → σ → I.Reply r × σ) :
    Plan I α → σ → Except Failure α × σ
  | done a, s => (.ok a, s)
  | stop f, s => (.error f, s)
  | ask r k, s => (k (answer r s).1).run answer (answer r s).2

/-- **A plan asks only for what is allowed**, whatever the replies are. -/
def Uses (allowed : I.Request → Prop) : Plan I α → Prop
  | done _ => True
  | stop _ => True
  | ask r k => allowed r ∧ ∀ reply, (k reply).Uses allowed

/-! ### How plans are composed -/

@[simp] theorem done_bind (a : α) (f : α → Plan I β) : (done a).bind f = f a := rfl

@[simp] theorem stop_bind (e : Failure) (f : α → Plan I β) :
    (stop e : Plan I α).bind f = stop e := rfl

@[simp] theorem ask_bind (r : I.Request) (k : I.Reply r → Plan I α) (f : α → Plan I β) :
    (ask r k).bind f = ask r fun reply => (k reply).bind f := rfl

/-- Running one plan after the other runs the second one from where the first one ended. -/
theorem run_bind {σ : Type} (answer : (r : I.Request) → σ → I.Reply r × σ) (p : Plan I α)
    (f : α → Plan I β) (s : σ) :
    (p.bind f).run answer s =
      match p.run answer s with
      | (.ok a, s) => (f a).run answer s
      | (.error e, s) => (.error e, s) := by
  induction p generalizing s with
  | done a => rfl
  | stop e => rfl
  | ask r k ih => exact ih _ _

/-- A composed plan asks only for what is allowed if its parts do. -/
theorem Uses.bind {allowed : I.Request → Prop} {p : Plan I α} {f : α → Plan I β}
    (hp : p.Uses allowed) (hf : ∀ a, (f a).Uses allowed) : (p.bind f).Uses allowed := by
  induction p with
  | done a => exact hf a
  | stop e => trivial
  | ask r k ih => exact ⟨hp.1, fun reply => ih reply (hp.2 reply)⟩

end Plan

end ClusterCatalog
