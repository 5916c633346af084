import ClusterCatalog.Proofs.Plan
import ClusterCatalog.Store.Access

/-!
# Access to a repository that refuses calls

A call of the repository can be refused, and a refused call changes nothing
(`Repository.answerUnless`). `Repository.terms` are the terms of such a repository: they say for
which reasons a call may be refused, and what is owed when a call is made. Reasons that are never
given leave the repository that refuses nothing, and what is reached there is what a run ends with
(`Access.keeps_run_iff`).

Each of the five requests has one law (`Access.keeps_persist`, `Access.keeps_query`,
`Access.keeps_children`, `Access.keeps_delete`, `Access.keeps_warn`). Whatever reads and writes the
repository is argued from these.
-/

namespace ClusterCatalog

/-- The reply to a refused call. A warning is never refused. -/
def StoreRequest.refused (e : Error) : (r : StoreRequest) → r.Reply
  | .persist .. => .error e
  | .query _ => .error e
  | .children _ => .error e
  | .delete _ => .error e
  | .warn _ => ()

namespace Repository

/-- **How a repository answers** a call, unless it refuses it for a reason. -/
def answerUnless : Option Error → (r : StoreRequest) → Repository → r.Reply × Repository
  | none, r, s => answer r s
  | some e, r, s => (r.refused e, s)

/-- How a repository answers one call after the other, where it is laid down which of them it refuses,
and for which reason. -/
def answerInTurn (r : StoreRequest) (s : Repository × List (Option Error)) :
    r.Reply × Repository × List (Option Error) :=
  let (reply, s') := answerUnless s.2.head?.join r s.1
  (reply, s', s.2.tail)

/-- The terms of a repository: what is owed when a call is made, and the reasons for which a call
may be refused. -/
def terms (owed : StoreRequest → Repository → Prop) (reasons : Error → Prop) :
    Terms storeInterface Repository where
  Owed := owed
  Answers r s reply s' :=
    ∃ refusal : Option Error, (∀ e, refusal = some e → reasons e)
      ∧ answerUnless refusal r s = (reply, s')

/-- The terms of a repository that refuses nothing. -/
abbrev sure : Terms storeInterface Repository := terms (fun _ _ => True) fun _ => False

/-- The terms of a repository that may refuse any call. -/
abbrev unsure : Terms storeInterface Repository := terms (fun _ _ => True) fun _ => True

variable {owed : StoreRequest → Repository → Prop} {reasons : Error → Prop}

/-- A repository that refuses nothing answers as the terms allow. -/
theorem terms_answers (r : StoreRequest) (s : Repository) :
    (terms owed reasons).Answers r s (answer r s).1 (answer r s).2 :=
  ⟨none, fun _ h => (Option.some_ne_none _ h.symm).elim, rfl⟩

/-- A refusal for one of the reasons is allowed as well, and leaves the repository as it is. -/
theorem terms_answers_refused {e : Error} (he : reasons e) (r : StoreRequest) (s : Repository) :
    (terms owed reasons).Answers r s (r.refused e) s :=
  ⟨some e, fun _ h => Option.some.inj h ▸ he, rfl⟩

end Repository

namespace Access

open Plan Repository

variable {α : Type} {owed : StoreRequest → Repository → Prop} {reasons : Error → Prop}
  {s : Repository}

/-! ### One law for each request -/

/-- What follows a request follows its answer and its refusals. -/
theorem keeps_ask_iff {post : Except Failure α → Repository → Prop} {r : StoreRequest}
    {k : r.Reply → Access α} :
    (Plan.ask r k : Access α).Keeps (terms owed reasons) post s
      ↔ owed r s
        ∧ (k (answer r s).1).Keeps (terms owed reasons) post (answer r s).2
        ∧ ∀ e, reasons e → (k (r.refused e)).Keeps (terms owed reasons) post s := by
  refine and_congr_right fun _ => ⟨fun h => ⟨?_, fun e he => ?_⟩, ?_⟩
  · exact h _ _ (terms_answers r s)
  · exact h _ _ (terms_answers_refused he r s)
  -- a reply is either the answer or one of the refusals
  · rintro ⟨hok, hrefused⟩ reply s' ⟨refusal, hreasons, hanswer⟩
    obtain ⟨rfl, rfl⟩ := Prod.ext_iff.1 hanswer
    cases refusal with
    | none => exact hok
    | some e => exact hrefused e (hreasons e rfl)

/-- A node is written, or the call is refused. -/
theorem keeps_persist {post : Except Failure Unit → Repository → Prop} {p : Path} {v : String} :
    (persist p v).Keeps (terms owed reasons) post s
      ↔ owed (.persist p v) s ∧ post (.ok ()) (s.persist p v)
        ∧ ∀ e, reasons e → post (.error (.error e)) s := keeps_ask_iff

/-- A node is read, or the call is refused. -/
theorem keeps_query {post : Except Failure (Option String) → Repository → Prop} {p : Path} :
    (query p).Keeps (terms owed reasons) post s
      ↔ owed (.query p) s ∧ post (.ok (s.query p)) s
        ∧ ∀ e, reasons e → post (.error (.error e)) s := keeps_ask_iff

/-- Names are listed, or the call is refused. -/
theorem keeps_children {post : Except Failure (List String) → Repository → Prop} {p : Path} :
    (children p).Keeps (terms owed reasons) post s
      ↔ owed (.children p) s ∧ post (.ok (s.children p)) s
        ∧ ∀ e, reasons e → post (.error (.error e)) s := keeps_ask_iff

/-- A node is removed with what is below it, or the call is refused. -/
theorem keeps_delete {post : Except Failure Unit → Repository → Prop} {p : Path} :
    (delete p).Keeps (terms owed reasons) post s
      ↔ owed (.delete p) s ∧ post (.ok ()) (s.delete p)
        ∧ ∀ e, reasons e → post (.error (.error e)) s := keeps_ask_iff

/-- A warning is never refused. -/
theorem keeps_warn {post : Except Failure Unit → Repository → Prop} {w : Warning} :
    (warn w).Keeps (terms owed reasons) post s
      ↔ owed (.warn w) s ∧ post (.ok ()) s := by
  refine keeps_ask_iff.trans (and_congr_right fun _ => ⟨And.left, fun h => ⟨h, fun _ _ => h⟩⟩)

/-- What is reached whatever is refused is reached where calls are refused for some reasons only. -/
theorem keeps_of_unsure {post : Except Failure α → Repository → Prop} {p : Access α}
    (h : p.Keeps unsure post s) : p.Keeps (terms (fun _ _ => True) reasons) post s :=
  h.of_terms (fun _ _ howed => howed) fun _ _ _ _ ⟨refusal, _, hanswer⟩ =>
    ⟨refusal, fun _ _ => trivial, hanswer⟩

/-- What always holds is reached. -/
theorem keeps_of_forall {post : Except Failure α → Repository → Prop} {p : Access α}
    (h : ∀ r s, post r s) : p.Keeps unsure post s := by
  induction p generalizing s with
  | done a => exact h _ _
  | stop f => exact h _ _
  | ask r k ih => exact ⟨trivial, fun reply _ _ => ih reply⟩

/-- **What is reached whatever is refused** is what a run ends with, whichever calls are refused. -/
theorem run_of_unsure {post : Except Failure α → Repository → Prop} {p : Access α}
    (h : p.Keeps unsure post s) (refusals : List (Option Error)) :
    post (p.run answerInTurn (s, refusals)).1 (p.run answerInTurn (s, refusals)).2.1 := by
  have hanswer : ∀ (r : StoreRequest) (t : Repository × List (Option Error)), unsure.Owed r t.1 →
      unsure.Answers r t.1 (answerInTurn r t).1 (answerInTurn r t).2.1 := fun r t _ =>
    ⟨t.2.head?.join, fun _ _ => trivial, rfl⟩
  exact Keeps.run hanswer (t := (s, refusals)) h

/-! ### Without refusals -/

/-- **Where nothing is refused, a plan ends as its run does.** -/
theorem keeps_run_iff {post : Except Failure α → Repository → Prop} {p : Access α} :
    p.Keeps sure post s ↔ post (p.run answer s).1 (p.run answer s).2 := by
  induction p generalizing s with
  | done a => exact Iff.rfl
  | stop f => exact Iff.rfl
  | ask r k ih =>
    rw [keeps_ask_iff]
    -- where nothing is refused, the only reply to consider is the one that is given
    constructor
    · rintro ⟨-, h, -⟩
      exact (ih _).1 h
    · intro h
      exact ⟨trivial, (ih _).2 h, fun _ he => he.elim⟩

/-! ### Readers -/

variable {β : Type}

/-- **A plan only reads**: it ends with a result that depends on the repository, or with the reason
of a refusal, and changes nothing. -/
def Reads (s : Repository) (p : Access α) (result : Except Failure α) : Prop :=
  ∀ (reasons : Error → Prop) (post : Except Failure α → Repository → Prop),
    (∀ e, reasons e → post (.error (.error e)) s) → post result s →
      p.Keeps (terms (fun _ _ => True) reasons) post s

theorem reads_pure (a : α) : Reads s (pure a) (.ok a) := fun _ _ _ h => h

theorem reads_ofResult (result : Except Failure α) : Reads s (Plan.ofResult result) result :=
  fun _ _ _ h => keeps_ofResult.2 h

theorem reads_children (p : Path) : Reads s (children p) (.ok (s.children p)) :=
  fun _ _ hrefused h => keeps_children.2 ⟨trivial, h, hrefused⟩

theorem reads_warn (w : Warning) : Reads s (warn w) (.ok ()) :=
  fun _ _ _ h => keeps_warn.2 ⟨trivial, h⟩

/-- One reader after the other. -/
theorem Reads.bind {p : Access α} {f : α → Access β} {x : Except Failure α}
    {y : α → Except Failure β} (hp : Reads s p x) (hf : ∀ a, Reads s (f a) (y a)) :
    Reads s (p >>= f) (x >>= y) := by
  intro reasons post hrefused h
  rw [keeps_bind]
  refine hp reasons _ hrefused ?_
  cases x with
  | error f => exact h
  | ok a => exact hf a reasons post hrefused h

/-- A loop reads what its rounds read. -/
theorem Reads.mapM {f : α → Access β} {g : α → Except Failure β} (h : ∀ a, Reads s (f a) (g a))
    (l : List α) : Reads s (l.mapM f) (l.mapM g) := by
  -- the rounds read one after the other, and the first one that fails is the end on both sides
  induction l with
  | nil => exact reads_pure []
  | cons a l ih =>
    rw [List.mapM_cons, List.mapM_cons]
    exact (h a).bind fun b => ih.bind fun bs => reads_pure (b :: bs)

/-- What follows a reader that ends with a known result. -/
theorem Reads.bind_ok {p : Access α} {f : α → Access β} {a : α} {y : Except Failure β}
    (hp : Reads s p (.ok a)) (hf : Reads s (f a) y) : Reads s (p >>= f) y := by
  intro reasons post hrefused h
  rw [keeps_bind]
  exact hp reasons _ hrefused (hf reasons post hrefused h)

/-- Nothing follows a reader that fails. -/
theorem Reads.bind_error {p : Access α} {f : α → Access β} {e : Failure} (hp : Reads s p (.error e)) :
    Reads s (p >>= f) (.error e) := by
  intro reasons post hrefused h
  rw [keeps_bind]
  exact hp reasons _ hrefused h

/-- A loop whose rounds all read something reads the list of it; only rounds that are made count. -/
theorem Reads.mapM_of_mem {f : α → Access β} {g : α → β} {l : List α}
    (h : ∀ a ∈ l, Reads s (f a) (.ok (g a))) : Reads s (l.mapM f) (.ok (l.map g)) := by
  induction l with
  | nil => exact reads_pure []
  | cons a l ih =>
    rw [List.mapM_cons]
    refine (h a List.mem_cons_self).bind_ok ?_
    exact (ih fun b hb => h b (List.mem_cons_of_mem _ hb)).bind_ok (reads_pure _)

/-- Where nothing is refused, a reader ends with its result. -/
theorem Reads.run {p : Access α} {result : Except Failure α} (h : Reads s p result) :
    p.run answer s = (result, s) := by
  have hkeeps : p.Keeps sure (fun r s' => r = result ∧ s' = s) s :=
    h _ _ (fun _ he => he.elim) ⟨rfl, rfl⟩
  exact Prod.ext_iff.2 (keeps_run_iff.1 hkeeps)

/-- **A loop of readers fails** if one of them does, and none of them fails for another reason. -/
theorem Reads.mapM_error {f : α → Access β} {e : Failure} {l : List α}
    (h : ∀ a ∈ l, (∃ b, Reads s (f a) (.ok b)) ∨ Reads s (f a) (.error e))
    (hfails : ∃ a ∈ l, Reads s (f a) (.error e)) : Reads s (l.mapM f) (.error e) := by
  induction l with
  | nil =>
    obtain ⟨a, ha, -⟩ := hfails
    cases ha
  | cons a l ih =>
    obtain ⟨ha, hl⟩ := List.forall_mem_cons.1 h
    rw [List.mapM_cons]
    -- the first one that fails ends the loop
    rcases ha with ⟨b, hb⟩ | hstop
    · refine hb.bind_ok (ih hl ?_).bind_error
      obtain ⟨c, hc, hstop⟩ := hfails
      rcases List.mem_cons.1 hc with rfl | hc
      · exact nomatch (Prod.mk.inj (hb.run.symm.trans hstop.run)).1
      · exact ⟨c, hc, hstop⟩
    · exact hstop.bind_error

end Access

end ClusterCatalog
