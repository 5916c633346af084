import ClusterCatalog.Plan

/-!
# Plans under every reply

What a plan achieves depends on the replies that it gets. `Plan.Keeps` is the condition under which
a plan, started in a state, reaches a postcondition *whatever* the replies are, as far as the
**terms** allow them: terms say in which states a request may be made at all, and which replies and
states can follow it. A refused call, a pool that does not open and a step of another operation are
all nothing but further replies.

`Keeps` is a fold over the tree of the plan, so it has one law for each way in which plans are
composed:

* `Plan.keeps_bind` — one plan after the other;
* `Plan.keeps_attempt` — the errors of the first part become results;
* `Plan.Keeps.forM` — a loop keeps its invariant.

`Plan.Keeps.run` takes the postcondition to the plan carried out, in states of which the terms see
only a part.

Where it does not matter what is replied (`Terms.any`), `Keeps` says which requests are made and what
the results look like. What a plan leaves alone is read off this (`Plan.Keeps.of_any`).
-/

namespace ClusterCatalog

/-- **The terms** on which requests are made in states `σ`. -/
structure Terms (I : Interface) (σ : Type) where
  /-- What holds of a state in which a request is made. -/
  Owed : I.Request → σ → Prop
  /-- The replies that a request can get, with the states after it. -/
  Answers : (r : I.Request) → σ → I.Reply r → σ → Prop

/-- The terms on which allowed requests get any reply; there is no state. -/
def Terms.any {I : Interface} (allowed : I.Request → Prop) : Terms I Unit where
  Owed r _ := allowed r
  Answers _ _ _ _ := True

namespace Plan

variable {I : Interface} {α β σ τ : Type}

/-- **A plan keeps to terms** and reaches `post`, whatever the replies are: each request is made in
a state in which it may be made. -/
def Keeps (T : Terms I σ) (post : Except Failure α → σ → Prop) : Plan I α → σ → Prop
  | done a, s => post (.ok a) s
  | stop f, s => post (.error f) s
  | ask r k, s => T.Owed r s ∧ ∀ reply s', T.Answers r s reply s' → (k reply).Keeps T post s'

/-! ### Laws of plans -/

instance : LawfulMonad (Plan I) := LawfulMonad.mk' (Plan I)
  (fun p => by
    show p.bind done = p
    induction p with
    | done a => rfl
    | stop f => rfl
    | ask r k ih => exact congrArg (ask r) (funext ih))
  (fun _ _ => rfl)
  (fun p f g => by
    show (p.bind f).bind g = p.bind fun a => (f a).bind g
    induction p with
    | done a => rfl
    | stop e => rfl
    | ask r k ih => exact congrArg (ask r) (funext ih))

/-- The notation for one plan after the other, unfolded. -/
theorem bind_eq (p : Plan I α) (f : α → Plan I β) : p >>= f = p.bind f := rfl

/-- A loop over one element is its one round. -/
theorem forM_singleton (f : α → Plan I Unit) (a : α) : [a].forM f = f a := bind_pure_unit

/-! ### Laws of keeping terms -/

variable {T : Terms I σ} {s : σ}

@[simp] theorem keeps_done {post : Except Failure α → σ → Prop} {a : α} :
    (done a : Plan I α).Keeps T post s ↔ post (.ok a) s := Iff.rfl

@[simp] theorem keeps_pure {post : Except Failure α → σ → Prop} {a : α} :
    (pure a : Plan I α).Keeps T post s ↔ post (.ok a) s := Iff.rfl

@[simp] theorem keeps_stop {post : Except Failure α → σ → Prop} {f : Failure} :
    (stop f : Plan I α).Keeps T post s ↔ post (.error f) s := Iff.rfl

@[simp] theorem keeps_ofExcept {post : Except Failure α → σ → Prop} {r : Except Error α} :
    (ofExcept r : Plan I α).Keeps T post s ↔ post (r.mapError .error) s := by
  cases r <;> rfl

@[simp] theorem keeps_ofResult {post : Except Failure α → σ → Prop} {r : Except Failure α} :
    (ofResult r : Plan I α).Keeps T post s ↔ post r s := by
  cases r <;> rfl

/-- What is reached is also reached with less demanded in the end. -/
theorem Keeps.mono {post post' : Except Failure α → σ → Prop} {p : Plan I α}
    (h : p.Keeps T post s) (hpost : ∀ r s, post r s → post' r s) : p.Keeps T post' s := by
  induction p generalizing s with
  | done a => exact hpost _ _ h
  | stop f => exact hpost _ _ h
  | ask r k ih => exact ⟨h.1, fun reply s' hreply => ih reply (h.2 reply s' hreply)⟩

/-- What is reached on some terms is reached where less is owed and fewer replies are given. -/
theorem Keeps.of_terms {T' : Terms I σ} {post : Except Failure α → σ → Prop} {p : Plan I α}
    (h : p.Keeps T post s) (howed : ∀ r s, T.Owed r s → T'.Owed r s)
    (hanswers : ∀ r s reply s', T'.Answers r s reply s' → T.Answers r s reply s') :
    p.Keeps T' post s := by
  -- the two sets of terms meet at requests only, and there once for what is owed and once for the
  -- replies
  induction p generalizing s with
  | done a => exact h
  | stop f => exact h
  | ask r k ih =>
    exact ⟨howed r s h.1, fun reply s' hreply => ih reply (h.2 reply s' (hanswers r s reply s' hreply))⟩

/-- The postcondition of the first of two plans. -/
def Then (T : Terms I σ) (f : α → Plan I β) (post : Except Failure β → σ → Prop) :
    Except Failure α → σ → Prop
  | .ok a, s => (f a).Keeps T post s
  | .error e, s => post (.error e) s

/-- **One plan after the other** reaches what the second one reaches from where the first one is
done. -/
theorem keeps_bind {post : Except Failure β → σ → Prop} {p : Plan I α} {f : α → Plan I β} :
    (p >>= f).Keeps T post s ↔ p.Keeps T (Then T f post) s := by
  -- by induction on the first plan: where it is done the two sides are the same, and while it asks they
  -- ask for the same
  rw [bind_eq]
  induction p generalizing s with
  | done a => exact Iff.rfl
  | stop e => exact Iff.rfl
  | ask r k ih =>
    exact and_congr_right fun _ =>
      forall_congr' fun reply => forall_congr' fun s' => imp_congr_right fun _ => ih reply

/-- **The rule of one plan after the other**, with a condition for what stands between them: the second
plan is followed from wherever the first one is done, and an error of the first one is the end. -/
theorem Keeps.bind {mid : Except Failure α → σ → Prop} {post : Except Failure β → σ → Prop}
    {p : Plan I α} {f : α → Plan I β} (hp : p.Keeps T mid s)
    (hok : ∀ a s, mid (.ok a) s → (f a).Keeps T post s)
    (herror : ∀ e s, mid (.error e) s → post (.error e) s) : (p >>= f).Keeps T post s := by
  -- the condition in between is stronger than what is asked of the first plan
  rw [keeps_bind]
  refine hp.mono fun r s hr => ?_
  cases r with
  | ok a => exact hok a s hr
  | error e => exact herror e s hr

/-- An error as a result. -/
def caught : Except Failure α → Except Failure (Except Error α)
  | .ok a => .ok (.ok a)
  | .error (.error e) => .ok (.error e)
  | .error .overflow => .error .overflow

/-- **A plan whose errors are caught** reaches what the plan reaches, with its error as the
result. -/
theorem keeps_attempt {post : Except Failure (Except Error α) → σ → Prop} {p : Plan I α} :
    p.attempt.Keeps T post s ↔ p.Keeps T (fun r => post (caught r)) s := by
  induction p generalizing s with
  | done a => exact Iff.rfl
  -- an overflow is not caught, so it stays what it is; every other failure becomes a result
  | stop f => cases f <;> exact Iff.rfl
  | ask r k ih =>
    exact and_congr_right fun _ =>
      forall_congr' fun reply => forall_congr' fun s' => imp_congr_right fun _ => ih reply

/-- **A loop keeps its invariant**, which may speak of the elements that are still to come. -/
theorem Keeps.forM {post : Except Failure Unit → σ → Prop} {f : α → Plan I Unit}
    (inv : List α → σ → Prop) {l : List α} (hinv : inv l s)
    (hstep : ∀ a rest s, inv (a :: rest) s → (f a).Keeps T (fun
      | .ok _, s => inv rest s
      | .error e, s => post (.error e) s) s)
    (hpost : ∀ s, inv [] s → post (.ok ()) s) : (l.forM f).Keeps T post s := by
  -- by induction on the elements that are still to come, for any state that has the invariant
  induction l generalizing s with
  | nil => exact hpost s hinv
  | cons a rest ih =>
    show (f a >>= fun _ => rest.forM f).Keeps T post s
    exact (hstep a rest s hinv).bind (fun _ s hs => ih hs) fun _ _ hs => hs

/-- **A plan carried out** ends as it does under every reply, if the terms allow the replies that
it gets. The terms may see less of a state than there is: `view` is what they see. -/
theorem Keeps.run {post : Except Failure α → σ → Prop} {p : Plan I α} {view : τ → σ}
    {answer : (r : I.Request) → τ → I.Reply r × τ}
    (hanswer : ∀ r t, T.Owed r (view t) → T.Answers r (view t) (answer r t).1 (view (answer r t).2))
    {t : τ} (h : p.Keeps T post (view t)) :
    post (p.run answer t).1 (view (p.run answer t).2) := by
  induction p generalizing t with
  | done a => exact h
  | stop f => exact h
  -- the reply that is given is one of those that the terms allow, so the rest of the plan is followed
  -- from there
  | ask r k ih => exact ih _ (h.2 _ _ (hanswer r t h.1))

/-- What is reached in one respect and in another one is reached in both. -/
theorem Keeps.and {post post' : Except Failure α → σ → Prop} {p : Plan I α}
    (h : p.Keeps T post s) (h' : p.Keeps T post' s) :
    p.Keeps T (fun r s => post r s ∧ post' r s) s := by
  induction p generalizing s with
  | done a => exact ⟨h, h'⟩
  | stop f => exact ⟨h, h'⟩
  -- what is owed is the same in both respects
  | ask r k ih =>
    exact ⟨h.1, fun reply s' hreply =>
      ih reply (h.2 reply s' hreply) (h'.2 reply s' hreply)⟩

/-- What is reached in each of several respects is reached in all of them. -/
theorem Keeps.forall {ι : Type} [Inhabited ι] {post : ι → Except Failure α → σ → Prop} {p : Plan I α}
    (h : ∀ i, p.Keeps T (post i) s) : p.Keeps T (fun r s => ∀ i, post i r s) s := by
  induction p generalizing s with
  | done a => exact h
  | stop f => exact h
  | ask r k ih =>
    -- that a request may be made does not depend on the respect, so any one of them says it
    refine ⟨(h default).1, fun reply s' hreply => ih reply fun i => ?_⟩
    exact (h i).2 reply s' hreply

/-! ### Under any reply -/

variable {allowed : I.Request → Prop} {result : Except Failure α → Prop}

/-- What the results look like under any reply, they look like wherever else the plan is started. -/
theorem Keeps.and_any {post : Except Failure α → σ → Prop} {p : Plan I α} (h : p.Keeps T post s)
    (hresult : p.Keeps (.any allowed) (fun r _ => result r) ()) :
    p.Keeps T (fun r s => post r s ∧ result r) s := by
  induction p generalizing s with
  | done a => exact ⟨h, hresult⟩
  | stop f => exact ⟨h, hresult⟩
  | ask r k ih =>
    exact ⟨h.1, fun reply s' hreply => ih reply (h.2 reply s' hreply) (hresult.2 reply () trivial)⟩

/-- **Allowed requests** change a state only as each of them does. -/
theorem Keeps.of_any {R : σ → σ → Prop} {p : Plan I α}
    (h : p.Keeps (.any allowed) (fun r _ => result r) ()) (hrefl : ∀ s, R s s)
    (htrans : ∀ s s' s'', R s s' → R s' s'' → R s s'')
    (hstep : ∀ r s, allowed r →
      T.Owed r s ∧ ∀ reply s', T.Answers r s reply s' → R s s') (s : σ) :
    p.Keeps T (fun r s' => R s s' ∧ result r) s := by
  induction p generalizing s with
  | done a => exact ⟨hrefl s, h⟩
  | stop f => exact ⟨hrefl s, h⟩
  | ask r k ih =>
    -- one request takes the state along `R`, and `R` is transitive
    obtain ⟨howed, hstep⟩ := hstep r s h.1
    refine ⟨howed, fun reply s' hreply => ?_⟩
    exact (ih reply (h.2 reply () trivial) s').mono fun _ s'' hs'' =>
      ⟨htrans _ _ _ (hstep reply s' hreply) hs''.1, hs''.2⟩

/-- To ask for nothing but what is allowed is to keep to the terms that allow it, and to demand nothing
in the end. -/
theorem uses_iff {p : Plan I α} :
    p.Uses allowed ↔ p.Keeps (.any allowed) (fun _ _ => True) () := by
  induction p with
  | done a => exact Iff.rfl
  | stop f => exact Iff.rfl
  | ask r k ih =>
    exact and_congr_right fun _ => ⟨fun h reply _ _ => (ih reply).1 (h reply),
      fun h reply => (ih reply).2 (h reply () trivial)⟩

/-- A plan that goes on with a result asks only for what is allowed if this is so for every result
that it can get. -/
theorem Uses.bind_of_keeps {P : α → Prop} {p : Plan I α} {f : α → Plan I β}
    (hp : p.Keeps (.any allowed) (fun r _ => ∀ a, r = .ok a → P a) ())
    (hf : ∀ a, P a → (f a).Uses allowed) : (p >>= f).Uses allowed :=
  uses_iff.2 (hp.bind (fun a _ ha => uses_iff.1 (hf a (ha a rfl))) fun _ _ _ => trivial)

/-- One plan after the other asks for what is allowed if each of them does. -/
theorem Uses.seq {p : Plan I α} {f : α → Plan I β} (hp : p.Uses allowed)
    (hf : ∀ a, (f a).Uses allowed) : (p >>= f).Uses allowed := Uses.bind hp hf

/-- What is allowed may be extended. -/
theorem Uses.mono {allowed' : I.Request → Prop} {p : Plan I α} (h : p.Uses allowed)
    (hallowed : ∀ r, allowed r → allowed' r) : p.Uses allowed' := by
  induction p with
  | done a => trivial
  | stop f => trivial
  | ask r k ih => exact ⟨hallowed r h.1, fun reply => ih reply (h.2 reply)⟩

/-- A result asks for nothing. -/
theorem uses_ofExcept (r : Except Error α) : (ofExcept r : Plan I α).Uses allowed := by
  cases r <;> trivial

/-- The same for a result that may be an overflow. -/
theorem uses_ofResult (r : Except Failure α) : (ofResult r : Plan I α).Uses allowed := by
  cases r <;> trivial

/-- Catching errors asks for nothing more. -/
theorem Uses.attempt {p : Plan I α} (h : p.Uses allowed) : p.attempt.Uses allowed :=
  uses_iff.2 (keeps_attempt.2 (uses_iff.1 h))

/-- A loop asks for what its rounds ask for. -/
theorem Uses.forM {f : α → Plan I Unit} {l : List α} (h : ∀ a ∈ l, (f a).Uses allowed) :
    (l.forM f).Uses allowed := by
  induction l with
  | nil => trivial
  | cons a l ih =>
    exact (h a List.mem_cons_self).seq fun _ => ih fun b hb => h b (List.mem_cons_of_mem _ hb)

/-- A loop that collects results asks for what its rounds ask for. -/
theorem Uses.mapM {f : α → Plan I β} {l : List α} (h : ∀ a ∈ l, (f a).Uses allowed) :
    (l.mapM f).Uses allowed := by
  induction l with
  | nil => trivial
  | cons a l ih =>
    rw [List.mapM_cons]
    refine (h a List.mem_cons_self).seq fun b => ?_
    exact (ih fun c hc => h c (List.mem_cons_of_mem _ hc)).seq fun _ => trivial

/-- What the result of each round looks like, the results of a loop look like. -/
theorem Keeps.mapM_any {P : β → Prop} {f : α → Plan I β} {l : List α}
    (h : ∀ a ∈ l, (f a).Keeps (.any allowed) (fun r _ => ∀ b, r = .ok b → P b) ()) :
    (l.mapM f).Keeps (.any allowed) (fun r _ => ∀ bs, r = .ok bs → ∀ b ∈ bs, P b) () := by
  induction l with
  | nil =>
    rintro bs h
    cases h
    exact fun b hb => absurd hb List.not_mem_nil
  | cons a l ih =>
    rw [List.mapM_cons]
    -- one round, then the other ones; whoever fails leaves no results, and nothing is claimed of them
    refine (h a List.mem_cons_self).bind (fun b _ hb => ?_) fun _ _ _ _ h => by cases h
    refine (ih fun a ha => h a (List.mem_cons_of_mem _ ha)).bind (fun bs _ hbs => ?_)
      fun _ _ _ _ h => by cases h
    rintro all h
    cases h
    exact List.forall_mem_cons.2 ⟨hb b rfl, hbs bs rfl⟩

end Plan

end ClusterCatalog
