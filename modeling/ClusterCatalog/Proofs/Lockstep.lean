import ClusterCatalog.Proofs.Plan

/-!
# Plans in lockstep

Two plans are **in lockstep** if they make matching requests as long as they get matching replies, and
end alike. A `Coupling` says which requests match and which replies to them do. So two executions of
one operation, in surroundings that look different, can be compared without following either of them
(`Plan.InStep`).

A number can overflow in one surrounding and not in the other. Nothing is said about what happens
then, except that the first plan stops.
-/

namespace ClusterCatalog

/-- **What the two plans may ask**, and what they may be told. -/
structure Coupling (I : Interface) where
  /-- The requests that match, with the replies to them that do. -/
  Matches : (r r' : I.Request) → (I.Reply r → I.Reply r' → Prop) → Prop
  /-- The replies that tell of an overflow. -/
  Overflows : (r : I.Request) → I.Reply r → Prop

/-- **Results are alike**: values that are related, or the same error. -/
inductive Alike {ε α β : Type} (Q : α → β → Prop) : Except ε α → Except ε β → Prop
  | ok {a : α} {b : β} (h : Q a b) : Alike Q (.ok a) (.ok b)
  | error (e : ε) : Alike Q (.error e) (.error e)

namespace Plan

variable {I : Interface} {α β γ δ : Type} {C : Coupling I} {Q : α → β → Prop} {S : γ → δ → Prop}

/-- **Two plans are in lockstep** and end with related results. -/
inductive InStep (C : Coupling I) {α β : Type} (Q : α → β → Prop) : Plan I α → Plan I β → Prop
  | done {a : α} {b : β} (h : Q a b) : InStep C Q (.done a) (.done b)
  | stop (f : Failure) : InStep C Q (.stop f) (.stop f)
  | ask {r r' : I.Request} {R : I.Reply r → I.Reply r' → Prop} {k : I.Reply r → Plan I α}
    {k' : I.Reply r' → Plan I β} (hrequest : C.Matches r r' R)
    (hnext : ∀ reply reply', R reply reply' → InStep C Q (k reply) (k' reply'))
    (hoverflow : ∀ reply, C.Overflows r reply → k reply = .stop .overflow) :
    InStep C Q (.ask r k) (.ask r' k')

namespace InStep

variable {p : Plan I α} {p' : Plan I β}

/-- One plan after the other. -/
theorem bind {f : α → Plan I γ} {f' : β → Plan I δ} (h : InStep C Q p p')
    (hf : ∀ a b, Q a b → InStep C S (f a) (f' b)) : InStep C S (p >>= f) (p' >>= f') := by
  rw [bind_eq, bind_eq]
  induction h with
  | done h => exact hf _ _ h
  | stop e => exact .stop e
  | ask hrequest _ hoverflow ih =>
    -- after a reply that tells of an overflow the first plan stops, and so does all that follows
    refine .ask hrequest ih fun reply hreply => ?_
    rw [hoverflow reply hreply]
    rfl

/-- Plans whose errors are caught. -/
theorem attempt (h : InStep C Q p p') : InStep C (Alike Q) p.attempt p'.attempt := by
  induction h with
  | done h => exact .done (.ok h)
  | stop f =>
    cases f with
    | error e => exact .done (.error e)
    | overflow => exact .stop .overflow
  | ask hrequest _ hoverflow ih =>
    -- an overflow is not caught
    refine .ask hrequest ih fun reply hreply => ?_
    show Plan.attempt _ = _
    rw [hoverflow reply hreply]
    rfl

/-- Results that are alike, as plans. -/
theorem ofResult {r : Except Failure α} {r' : Except Failure β} (h : Alike Q r r') :
    InStep C Q (Plan.ofResult r) (Plan.ofResult r') := by
  cases h with
  | ok h => exact .done h
  | error f => exact .stop f

/-- Results that are alike and cannot be an overflow, as plans. -/
theorem ofExcept {r : Except Error α} {r' : Except Error β} (h : Alike Q r r') :
    InStep C Q (Plan.ofExcept r) (Plan.ofExcept r') := by
  cases h with
  | ok h => exact .done h
  | error e => exact .stop (.error e)

/-- A loop, round by round. -/
theorem forM {f f' : α → Plan I Unit} {l : List α} (h : ∀ a ∈ l, InStep C Eq (f a) (f' a)) :
    InStep C Eq (l.forM f) (l.forM f') := by
  induction l with
  | nil => exact .done rfl
  | cons a l ih =>
    -- nothing is handed from one round to the next, so the rounds need only end alike
    refine (h a List.mem_cons_self).bind fun _ _ _ => ?_
    exact ih fun b hb => h b (List.mem_cons_of_mem _ hb)

end InStep

end Plan

end ClusterCatalog
