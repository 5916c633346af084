import ClusterCatalog.Cluster.RuleChange
import ClusterCatalog.Proofs.Cluster.Ownership
import ClusterCatalog.Proofs.Store.Frame

/-!
# Repeating a change of rules whose reload came too late

A change of rules writes the rule, waits until the node has reloaded the database, and writes how the
schemas differ between the generation before the call and the reloaded one. If the reload does not
come in time, the call ends with an error that says that it may be repeated. Meanwhile the node
installs the reloaded generation.

What does the repeated call write? The generation that it takes as the one before the change is the
reloaded one already. It is compared with itself, nothing is written
(`Stored.persistReloadAltered_self`), and the stored tables stay what they were before the first call:
they are those of the reloaded schemas only if the reload has not changed any table
(`RuleChange.tables_retry_iff`).

A call is carried out request by request, with generations installed in between (`RuleRun`). What an
operation on the repository does under this is argued from the terms of a node on which only the
repository, and the generations that are seen, matter (`seenTerms`).
-/

namespace ClusterCatalog

open Plan Repository

/-! ### A reload that changes nothing -/

namespace Schemas

/-- The tables of a schema, none if there is no schema. -/
def tables (m : Schemas) (schema : String) : SortedMap Table :=
  ((m.get? schema).map Schema.tables).getD ∅

variable {m : Schemas}

/-- Of a schema that is compared with itself nothing is to be written. -/
theorem additions_self (name : String) {x : Schema} (h : x.SelfNamed) :
    additions name x (some x) = { name } := by
  -- each table is found in the schema under its own name, so none of them is new
  have htables : x.tables.values.filter
      (fun t => (some x).bind (fun c => c.tables.get? t.name) != some t) = [] :=
    List.filter_eq_nil_iff.2 fun t ht => by simp [h.tables.get?_name ht]
  have hviews : x.views.values.filter
      (fun v => (some x).bind (fun c => c.views.get? v.name) != some v) = [] :=
    List.filter_eq_nil_iff.2 fun v hv => by simp [h.views.get?_name hv]
  unfold additions
  rw [htables, hviews]
  rfl

/-- Compared with themselves, schemas have nothing to be written. -/
theorem toBeWritten_self (h : m.SelfNamed) : toBeWritten m m = [] := by
  unfold toBeWritten
  refine List.filter_eq_nil_iff.2 fun x hx => ?_
  obtain ⟨e, he, rfl⟩ := List.mem_map.1 hx
  rw [(m.get?_eq_some_iff).2 he, additions_self e.1 (h e he)]
  exact Bool.false_ne_true

/-- Compared with themselves, schemas have nothing to be dropped. -/
theorem toBeDropped_self (h : m.SelfNamed) : toBeDropped m m = [] := by
  unfold toBeDropped
  refine List.flatMap_eq_nil_iff.2 fun e he => ?_
  rw [List.map_eq_nil_iff]
  refine List.filter_eq_nil_iff.2 fun t ht => ?_
  have hcontains : e.2.tables.contains t.name = true :=
    SortedMap.contains_iff.2 ⟨t, (h e he).tables.get?_name ht⟩
  rw [(m.get?_eq_some_iff).2 he]
  simp [hcontains]

end Schemas

namespace Stored

variable {m : Schemas}

/-- **A reload that changes nothing** is not written. -/
theorem persistReloadAltered_self (h : m.SelfNamed) (db : String) :
    persistReloadAltered db m m = pure () := by
  unfold persistReloadAltered dropRemovedTables
  rw [Schemas.toBeWritten_self h, Schemas.toBeDropped_self h]
  rfl

/-- The same if only tables are written. -/
theorem persistReloadDropped_self (h : m.SelfNamed) (db : String) :
    persistReloadDropped db m m = pure () := by
  unfold persistReloadDropped dropRemovedTables
  rw [Schemas.toBeWritten_self h, Schemas.toBeDropped_self h]
  rfl

end Stored

/-! ### What operations on the repository fail for -/

/-- Whether an error says that a reload came too late. -/
def Error.IsTimeout (e : Error) : Prop := ∃ db ms, e = .reloadTimeout db ms

/-- **An operation on the repository has nothing to do with reloads**: unless a call is refused for
want of a reload, it does not fail for want of one. -/
def Access.Timely {α : Type} (p : Access α) : Prop :=
  ∀ s, p.Keeps (terms (fun _ _ => True) fun e => ¬ e.IsTimeout)
    (fun result _ => ∀ e, result = .error (.error e) → ¬ e.IsTimeout) s

namespace Access.Timely

variable {α β : Type}

theorem pure (a : α) : Timely (Pure.pure a : Access α) := fun _ _ h => by cases h

/-- A result is no matter of time unless it says so. -/
theorem ofResult {result : Except Failure α} (h : ∀ e, result = .error (.error e) → ¬ e.IsTimeout) :
    Timely (Plan.ofResult result) := fun _ => keeps_ofResult.2 h

theorem persist (p : Path) (v : String) : Timely (Access.persist p v) := fun _ =>
  keeps_persist.2 ⟨trivial, (fun _ h => by cases h), fun e he e' h => by cases h; exact he⟩

theorem query (p : Path) : Timely (Access.query p) := fun _ =>
  keeps_query.2 ⟨trivial, (fun _ h => by cases h), fun e he e' h => by cases h; exact he⟩

theorem children (p : Path) : Timely (Access.children p) := fun _ =>
  keeps_children.2 ⟨trivial, (fun _ h => by cases h), fun e he e' h => by cases h; exact he⟩

theorem delete (p : Path) : Timely (Access.delete p) := fun _ =>
  keeps_delete.2 ⟨trivial, (fun _ h => by cases h), fun e he e' h => by cases h; exact he⟩

theorem warn (w : Warning) : Timely (Access.warn w) := fun _ =>
  keeps_warn.2 ⟨trivial, fun _ h => by cases h⟩

/-- One operation after the other. -/
theorem seq {p : Access α} {f : α → Access β} (hp : Timely p) (hf : ∀ a, Timely (f a)) :
    Timely (p >>= f) := fun s =>
  (hp s).bind (fun a s' _ => hf a s') fun f _ h e he => h e (by cases he; rfl)

theorem forM {f : α → Access Unit} {l : List α} (h : ∀ a ∈ l, Timely (f a)) : Timely (l.forM f) := by
  induction l with
  | nil => exact pure ()
  | cons a l ih =>
    exact (h a List.mem_cons_self).seq fun _ => ih fun b hb => h b (List.mem_cons_of_mem _ hb)

/-- An error that is caught is no error any more. -/
theorem attempt {p : Access α} (h : Timely p) : Timely p.attempt := by
  refine fun s => keeps_attempt.2 ((h s).mono fun result _ _ e he => ?_)
  rcases result with (e' | -) | a <;> cases he

/-! ### Items -/

/-- A revision that is not a number is a malformed one. -/
theorem number (path : Path) (text : String) (e : Error)
    (h : Item.number path text = .error (.error e)) : ¬ e.IsTimeout := by
  unfold Item.number at h
  cases hnumber : revisionOf? text with
  | some n => rw [hnumber] at h; cases h
  | none =>
    rw [hnumber] at h
    cases h
    rintro ⟨db, ms, h⟩
    cases h

/-- Listing revisions can fail for their names only. -/
theorem revisions (path : Path) : Timely (Item.revisions path) := by
  unfold Item.revisions
  refine (children _).seq fun names => ?_
  rw [Item.mapM_parseRevision]
  refine (ofResult fun e he => ?_).seq fun found => ?_
  · -- a name that is no number is reported as such
    rw [Item.mapM_number] at he
    split at he
    · cases he
    · cases he
      rintro ⟨db, ms, h⟩
      cases h
  · split
    · exact (warn _).seq fun _ => pure _
    · exact pure _

/-- Reading a pointer can fail for what it says only. -/
theorem active (path : Path) : Timely (Item.active path) := by
  unfold Item.active
  refine (query _).seq fun found => ?_
  cases found with
  | none => exact pure none
  | some text =>
    show Timely (if text = "" then _ else _ : Access (Option Nat))
    split
    · exact pure none
    · rw [Item.parseRevision_eq]
      exact (ofResult (number _ _)).seq fun _ => pure _

/-- **Publishing is no matter of time**: it fails for want of a number, or since something stored is
malformed. -/
theorem publish (path : Path) (v : String) : Timely (Item.publish path v) := by
  have hstage : Timely (Item.stage path v) := by
    unfold Item.stage
    refine (revisions path).seq fun found => ?_
    refine (ofResult fun e he => ?_).seq fun next => (persist _ _).seq fun _ => (active path).seq ?_
    · -- there may be no next number, but that is no matter of time
      unfold Item.nextRevision at he
      split at he
      · cases he
      · split at he <;> cases he
    · rintro (_ | current)
      · exact (persist _ _).seq fun _ => pure _
      · exact pure _
  have hcommit : ∀ switch, Timely (Item.commitOne switch) := by
    intro switch
    unfold Item.commitOne
    split
    · refine (persist _ _).seq fun _ => ?_
      unfold Item.prune
      refine (revisions _).attempt.seq fun found => ?_
      cases found with
      | error e => exact warn _
      | ok found =>
        refine forM fun n _ => (delete _).attempt.seq fun result => ?_
        cases result with
        | error e => exact warn _
        | ok _ => exact pure _
    · exact pure _
  unfold Item.publish
  refine hstage.seq fun switch => ?_
  rw [Item.commit_singleton]
  exact (hcommit switch).seq fun _ => pure _

/-! ### Reloads -/

variable (db : String) (schema : Schema) (reloaded current : Schemas)

theorem persistTables (name : String) (tables : List Table) :
    Timely (Stored.persistTables db name tables) :=
  forM fun _ _ => (publish _ _).seq fun _ => pure _

theorem persistViews (name : String) (views : List View) : Timely (Stored.persistViews db name views) :=
  forM fun _ _ => (publish _ _).seq fun _ => pure _

theorem dropRemovedTables : Timely (Stored.dropRemovedTables db reloaded current) :=
  forM fun _ _ => delete _

/-- **Writing a reload is no matter of time** either, once it has come. -/
theorem persistReloadAltered : Timely (Stored.persistReloadAltered db reloaded current) :=
  (forM fun _ _ => (persist _ _).seq fun _ => (persistTables db _ _).seq fun _ =>
    persistViews db _ _).seq fun _ => dropRemovedTables db reloaded current

/-- The same if only tables are written. -/
theorem persistReloadDropped : Timely (Stored.persistReloadDropped db reloaded current) :=
  (forM fun _ _ => (persist _ _).seq fun _ => persistTables db _ _).seq fun _ =>
    dropRemovedTables db reloaded current

end Access.Timely

/-! ### Calls under way -/

/-- **A move**: the node installs a generation, or the call makes its next request. A call of the
repository may be refused. -/
inductive RuleMove where
  | install (g : Generation)
  | next (refusal : Option String)

/-- **A call under way** on a node, with what is left of it. -/
structure RuleRun where
  stage : Stage
  rest : Cluster Unit

namespace RuleRun

/-- The run after a move. -/
def step (run : RuleRun) : RuleMove → RuleRun
  | .install g => { run with stage := run.stage.install g }
  | .next refusal =>
    match run.rest with
    | .ask r k =>
      let answered := Stage.answerUnless (refusal.map .repository) r run.stage
      ⟨answered.2, k answered.1⟩
    | _ => run

/-- The run after all moves. -/
def after (run : RuleRun) (moves : List RuleMove) : RuleRun := moves.foldl step run

/-- The result of the call, if it is over. -/
def result? (run : RuleRun) : Option (Except Failure Unit) :=
  match run.rest with
  | .done a => some (.ok a)
  | .stop f => some (.error f)
  | .ask .. => none

end RuleRun

/-- **The terms of a node on which generations come and go.** Only the repository is looked at. A call
of it may be refused, though not for want of a reload, and every generation that is seen is one of
those described. Nothing else is asked for. -/
def seenTerms (seen : Generation → Prop) : Terms clusterInterface Repository where
  Owed
    | .store _, _ => True
    | .current, _ => True
    | .awaitGeneration .., _ => True
    | _, _ => False
  Answers
    | .store call, s, reply, s' =>
      (terms (fun _ _ => True) fun e => ¬ e.IsTimeout).Answers call s reply s'
    | .current, s, g, s' => seen g ∧ s' = s
    | .awaitGeneration .., s, found, s' => (∀ g, found = some g → seen g) ∧ s' = s
    | _, _, _, _ => False

/-- A call that is refused is refused by the repository. -/
theorem not_isTimeout_repository (reason : String) : ¬ (Error.repository reason).IsTimeout := by
  rintro ⟨db, ms, h⟩
  cases h

/-- **A request of a call under way** is answered on these terms. -/
theorem Stage.answerUnless_seen {seen : Generation → Prop} {s : Stage} (hseen : seen s.generation)
    (refusal : Option String) {r : ClusterRequest} (howed : (seenTerms seen).Owed r s.repository) :
    (seenTerms seen).Answers r s.repository
        (Stage.answerUnless (refusal.map .repository) r s).1
        (Stage.answerUnless (refusal.map .repository) r s).2.repository
      ∧ seen (Stage.answerUnless (refusal.map .repository) r s).2.generation := by
  have hled := s.leadsTo_answerUnless (refusal.map .repository) r
  generalize Stage.answerUnless (refusal.map .repository) r s = answered at hled ⊢
  cases hled with
  | answered call =>
    refine ⟨s.answerStore_answers_of (fun _ _ => not_isTimeout_repository _) call, ?_⟩
    rw [(s.answerStore_frame call).1]
    exact hseen
  | @refused call e he =>
    -- a refusal tells that the repository failed, and never that a reload is missing
    obtain ⟨reason, -, rfl⟩ := Option.map_eq_some_iff.1 he
    have hrefused : (terms (fun _ _ => True) fun e => ¬ e.IsTimeout).Answers call s.repository
        (call.refused (.repository reason)) s.repository :=
      terms_answers_refused (not_isTimeout_repository reason) call s.repository
    exact ⟨hrefused, hseen⟩
  | current => exact ⟨⟨hseen, rfl⟩, hseen⟩
  | found timeoutMs hgoal => exact ⟨⟨fun _ hg => Option.some.inj hg ▸ hseen, rfl⟩, hseen⟩
  | notFound goal timeoutMs => exact ⟨⟨fun _ hg => (by cases hg), rfl⟩, hseen⟩
  -- nothing else is asked for
  | _ => exact howed.elim

namespace RuleRun

variable {seen : Generation → Prop} {post : Except Failure Unit → Repository → Prop} {run : RuleRun}

/-- One move takes a call on to a rest that reaches the same postcondition. -/
theorem keeps_step (hkeeps : run.rest.Keeps (seenTerms seen) post run.stage.repository)
    (hseen : seen run.stage.generation) {move : RuleMove} (hmove : ∀ g, move = .install g → seen g) :
    (run.step move).rest.Keeps (seenTerms seen) post (run.step move).stage.repository
      ∧ seen (run.step move).stage.generation := by
  obtain ⟨s, rest⟩ := run
  -- installing leaves the repository alone, and the generation is one of those that may be seen
  cases move with
  | install g =>
    show rest.Keeps _ _ (s.install g).repository ∧ seen (s.install g).generation
    rw [s.repository_install, s.generation_install]
    exact ⟨hkeeps, hmove g rfl⟩
  | next refusal =>
    -- a call that is over does not go on
    cases rest with
    | done a => exact ⟨hkeeps, hseen⟩
    | stop f => exact ⟨hkeeps, hseen⟩
    | ask r k =>
      obtain ⟨hanswers, hseen'⟩ := Stage.answerUnless_seen hseen refusal hkeeps.1
      exact ⟨hkeeps.2 _ _ hanswers, hseen'⟩

/-- **A call that is over** has reached its postcondition, whatever generations it has seen. -/
theorem post_of_result? (hkeeps : run.rest.Keeps (seenTerms seen) post run.stage.repository)
    (hseen : seen run.stage.generation) {moves : List RuleMove}
    (hmoves : ∀ g, .install g ∈ moves → seen g) {result : Except Failure Unit}
    (hresult : (run.after moves).result? = some result) :
    post result (run.after moves).stage.repository := by
  induction moves generalizing run with
  | nil =>
    obtain ⟨s, rest⟩ := run
    -- if the call has a result it is over, and the terms say what it has come to
    cases rest with
    | done a => cases hresult; exact hkeeps
    | stop f => cases hresult; exact hkeeps
    | ask r k => cases hresult
  | cons move moves ih =>
    have hmove : ∀ g, move = .install g → seen g := fun g hg => hmoves g (hg ▸ List.mem_cons_self)
    obtain ⟨hkeeps', hseen'⟩ := keeps_step hkeeps hseen hmove
    exact ih hkeeps' hseen' (fun g hg => hmoves g (List.mem_cons_of_mem _ hg)) hresult

end RuleRun

/-! ### Changes of rules -/

/-- **A change of the rules** of a database. A change of a rule that is none does nothing. -/
inductive RuleChange where
  | alter (rule : Option Rule)
  | removeItems (rule : Option Rule)
  | remove (rule : String)

namespace RuleChange

/-- The operation that carries a change out. -/
def run (service : Service) (db : String) : RuleChange → Cluster Unit
  | alter rule => service.alterRule db rule
  | removeItems rule => service.removeRuleItems db rule
  | remove rule => service.removeRule db rule

/-- What is written of a change itself. -/
def write (db : String) : RuleChange → Access Unit
  | alter rule => rule.elim (pure ()) fun rule => Stored.persistRules db [rule] >>= Item.commit
  | removeItems rule => rule.elim (pure ()) fun rule => Stored.deleteRuleItems db [rule]
  | remove rule => Stored.deleteRule db rule

/-- What is written of a reload that follows a change. -/
def writeReload (db : String) (reloaded current : Schemas) : RuleChange → Access Unit
  | alter _ => Stored.persistReloadAltered db reloaded current
  | _ => Stored.persistReloadDropped db reloaded current

variable {db : String} (service : Service) (change : RuleChange)

/-- **A change of rules** does nothing, or it takes the current generation, writes the change, waits
for the reload and writes it. -/
theorem run_cases (db : String) :
    change.run service db = pure ()
      ∨ change.run service db = (Cluster.current >>= fun before =>
        Cluster.access (change.write db) >>= fun _ =>
          service.awaitReload db before >>= fun reload =>
            Cluster.access (change.writeReload db (reload.schemas db) (before.schemas db))) := by
  -- without a configuration there is nothing to be done; otherwise all three go through the same steps
  cases change with
  | alter rule =>
    cases rule with
    | none => exact .inl rfl
    | some rule => exact .inr rfl
  | removeItems rule =>
    cases rule with
    | none => exact .inl rfl
    | some rule => exact .inr rfl
  | remove rule => exact .inr rfl

/-- The change itself is written among the rules of the database. -/
theorem uses_write : (change.write db).Uses (StoreRequest.Concerns (Path.databaseRules db)) := by
  have hitem : ∀ rule item, (Path.databaseRules db).IsAbove (Path.databaseRuleItem db rule item) :=
    fun rule item => (Path.isAbove_child _ rule).covers.isAbove_of_isAbove (Path.isAbove_child _ item)
  cases change with
  | alter rule =>
    cases rule with
    | none => trivial
    | some rule =>
      -- every switch that is left to commit is one of an item of the rule
      refine Uses.bind_of_keeps (P := fun switches => ∀ switch ∈ switches,
        (Path.databaseRules db).Covers switch.path) ?_ fun switches => Item.uses_commit
      unfold Stored.persistRules
      refine (Keeps.mapM_any (P := fun switches => ∀ switch ∈ switches,
        (Path.databaseRules db).Covers switch.path) fun rule _ => Keeps.mapM_any fun item _ =>
          Item.keeps_stage_covers (hitem rule.name item.1).covers item.2).bind
        (fun switches _ hswitches => ?_) fun _ _ _ _ h => by cases h
      rintro all h switch hswitch
      cases h
      obtain ⟨l, hl, hswitch⟩ := List.mem_flatten.1 hswitch
      exact hswitches switches rfl l hl switch hswitch
  | removeItems rule =>
    cases rule with
    | none => trivial
    | some rule =>
      exact Uses.forM fun rule _ => Uses.forM fun item _ => Access.uses_delete (hitem _ _)
  | remove rule => exact Access.uses_delete (Path.isAbove_child _ _)

/-- What is written of a reload is among the schemas of the database. -/
theorem uses_writeReload (reloaded current : Schemas) :
    (change.writeReload db reloaded current).Uses (StoreRequest.Concerns (Path.schemas db)) := by
  cases change with
  | alter rule => exact Stored.uses_persistReloadAltered db reloaded current
  | removeItems rule => exact Stored.uses_persistReloadDropped db reloaded current
  | remove rule => exact Stored.uses_persistReloadDropped db reloaded current

/-- The rules of a database are no part of its schemas. -/
theorem keeps_schemas {α : Type} {p : Access α}
    (h : p.Uses (StoreRequest.Concerns (Path.databaseRules db))) {reasons : Error → Prop}
    (s : Repository) : p.Keeps (terms (fun _ _ => True) reasons)
      (fun _ s' => SameAt (Path.schemas db) s s') s := by
  have hapart : (Path.databaseRules db).Apart (Path.schemas db) :=
    Path.apart_child (by decide) (by decide) (by decide)
  exact Access.keeps_of_unsure ((Access.keeps_sameAt_within h s).mono fun _ _ hs => hs _ hapart)

variable {seen : Generation → Prop} {s : Repository}

/-- An operation on the repository keeps to the terms that it keeps to on the repository alone. -/
theorem keeps_access {α : Type} {post : Except Failure α → Repository → Prop} {p : Access α}
    (h : p.Keeps (terms (fun _ _ => True) fun e => ¬ e.IsTimeout) post s) :
    (Cluster.access p).Keeps (seenTerms seen) post s := by
  unfold Cluster.access
  induction p generalizing s with
  | done a => exact h
  | stop f => exact h
  | ask r k ih => exact ⟨trivial, fun reply s' hreply => ih reply (h.2 reply s' hreply)⟩

/-- **Before a reload is written** the schemas are left alone. What is written then is the difference of
two generations that are seen. -/
theorem keeps_run {post : Except Failure Unit → Repository → Prop}
    (hsame : ∀ result s', SameAt (Path.schemas db) s s' → post result s')
    (hreload : ∀ before reload s', seen before → seen reload → SameAt (Path.schemas db) s s' →
      (change.writeReload db (reload.schemas db) (before.schemas db)).Keeps
        (terms (fun _ _ => True) fun e => ¬ e.IsTimeout) post s') :
    (change.run service db).Keeps (seenTerms seen) post s := by
  rcases change.run_cases service db with hnothing | hrun
  · rw [hnothing]
    exact hsame _ s (.refl _ s)
  rw [hrun, keeps_bind]
  refine ⟨trivial, ?_⟩
  rintro before s₀ ⟨hbefore, rfl⟩
  show (Cluster.access (change.write db) >>= _).Keeps _ _ _
  refine (keeps_access (keeps_schemas change.uses_write s₀)).bind (fun _ s₁ h₁ => ?_)
    fun f s₁ h₁ => hsame _ s₁ h₁
  -- the stored rules are read, and the reload is waited for
  unfold Service.awaitReload
  rw [bind_assoc]
  refine (keeps_access (keeps_schemas (Stored.uses_loadRules db) s₁)).bind (fun rules s₂ h₂ => ?_)
    fun f s₂ h₂ => hsame _ s₂ (h₁.trans h₂)
  rw [bind_assoc, keeps_bind]
  refine ⟨trivial, ?_⟩
  rintro found _ ⟨hfound, rfl⟩
  cases found with
  | none => exact hsame _ _ (h₁.trans h₂)
  | some reload => exact keeps_access (hreload before reload _ hbefore (hfound reload rfl) (h₁.trans h₂))

/-- **A change whose reload comes too late** leaves the schemas alone. -/
theorem keeps_run_of_timeout :
    (change.run service db).Keeps (seenTerms fun _ => True) (fun result s' =>
      result = .error (.error (.reloadTimeout db service.reloadTimeoutMs)) →
        SameAt (Path.schemas db) s s') s := by
  refine change.keeps_run service (fun _ _ h _ => h) fun before reload s' _ _ _ => ?_
  -- nothing fails for want of a reload once the reload is there
  have htimely : (change.writeReload db (reload.schemas db) (before.schemas db)).Timely := by
    cases change with
    | alter rule => exact Access.Timely.persistReloadAltered db _ _
    | removeItems rule => exact Access.Timely.persistReloadDropped db _ _
    | remove rule => exact Access.Timely.persistReloadDropped db _ _
  exact (htimely s').mono fun result _ h hresult => absurd ⟨_, _, rfl⟩ (h _ hresult)

/-- **A change that sees the same schemas from its start to its end** leaves the stored ones alone. -/
theorem keeps_run_of_same {m : Schemas} (hm : m.SelfNamed) :
    (change.run service db).Keeps (seenTerms fun g => g.schemas db = m)
      (fun _ s' => SameAt (Path.schemas db) s s') s := by
  refine change.keeps_run service (fun _ _ h => h) fun before reload s' hbefore hreload h => ?_
  -- the reload has what the generation before had, so there is nothing to write
  have hnothing : change.writeReload db m m = pure () := by
    cases change with
    | alter rule => exact Stored.persistReloadAltered_self hm db
    | removeItems rule => exact Stored.persistReloadDropped_self hm db
    | remove rule => exact Stored.persistReloadDropped_self hm db
  rw [hbefore, hreload, hnothing]
  exact h

/-- The tables of a schema as they are loaded from a repository. -/
def loadedTables (r : Repository) (db schema : String) : Except Failure (SortedMap Table) :=
  ((Stored.loadTables db schema).run Repository.answer r).1

/-- What is loaded depends on what is stored of the schemas. -/
theorem loadedTables_congr {r r' : Repository} (h : SameAt (Path.schemas db) r r') (schema : String) :
    loadedTables r' db schema = loadedTables r db schema :=
  (Access.run_of_sameAt (Access.uses_mono (Stored.uses_loadTables db schema)
    (Stored.covers_tables db schema)) h).1

/-- **A change of rules that is repeated after its reload came too late does not write the reload.**
The first call fails for want of a reload, the node installs the reloaded schemas, whose tables and
views stand under their own names, and the repeated call succeeds while no others are installed. Then
the tables that are loaded are those of the generation in which the first call was started; so they
are the reloaded ones exactly if the reload has changed no table. Were a table under another name, it
would differ from itself, and the repeated call would write it after all. -/
theorem tables_retry_iff (service : Service) (change : RuleChange) (db : String)
    (stage later : Stage) (first second : List RuleMove) (reloaded : Schemas)
    (hself : reloaded.SelfNamed)
    (hstored : ∀ schema, reloaded.contains schema = true ∨
        (stage.generation.schemas db).contains schema = true →
      loadedTables stage.repository db schema = .ok ((stage.generation.schemas db).tables schema))
    (htimeout : (RuleRun.after ⟨stage, change.run service db⟩ first).result?
      = some (.error (.error (.reloadTimeout db service.reloadTimeoutMs))))
    (hlater : later.repository
      = (RuleRun.after ⟨stage, change.run service db⟩ first).stage.repository)
    (hreloaded : later.generation.schemas db = reloaded)
    (hinstalled : ∀ g, .install g ∈ second → g.schemas db = reloaded)
    (hok : (RuleRun.after ⟨later, change.run service db⟩ second).result? = some (.ok ())) :
    let final := (RuleRun.after ⟨later, change.run service db⟩ second).stage.repository
    (∀ schema, loadedTables final db schema = loadedTables stage.repository db schema)
      ∧ ((∀ schema, reloaded.contains schema = true ∨
            (stage.generation.schemas db).contains schema = true →
          loadedTables final db schema = .ok (reloaded.tables schema))
        ↔ ∀ schema, reloaded.contains schema = true ∨
            (stage.generation.schemas db).contains schema = true →
          (stage.generation.schemas db).tables schema = reloaded.tables schema) := by
  intro final
  -- the first call writes schemas only after the wait, which it did not survive
  have hfirst : SameAt (Path.schemas db) stage.repository later.repository := by
    rw [hlater]
    exact RuleRun.post_of_result? (change.keeps_run_of_timeout service) trivial
      (fun _ _ => trivial) htimeout rfl
  -- the second one compares the reloaded schemas with themselves
  have hsecond : SameAt (Path.schemas db) later.repository final :=
    RuleRun.post_of_result? (change.keeps_run_of_same service hself) hreloaded hinstalled hok
  have hkept : ∀ schema, loadedTables final db schema = loadedTables stage.repository db schema :=
    fun schema => loadedTables_congr (hfirst.trans hsecond) schema
  refine ⟨hkept, forall_congr' fun schema => imp_congr_right fun hschema => ?_⟩
  rw [hkept, hstored schema hschema]
  exact ⟨Except.ok.inj, congrArg Except.ok⟩

/-! ### One schema -/

/-- A generation in which a database has one schema. -/
def oneSchema (number : Nat) (tables : List Table) (rules : List Rule) : Generation where
  number
  databases := .ofList [("d",
    { name := "d", rules := .ofList rules, schemas := .ofList [("s", .ofTables "s" tables)] })]

/-- A node on which the tables of the schema are stored. -/
def oneSchemaStage (tables : List Table) : Stage :=
  ((Service.alterSchema "d" "s" tables [] [] []).run Stage.answer
    { repository := .memory ⟨∅⟩, generation := oneSchema 0 tables [] }).2

/-- The repeated call, during which the reloaded generation is installed once more. -/
def reloadAgain (tables : List Table) (rules : List Rule) : List RuleMove :=
  [.next none, .install (oneSchema 2 tables rules)] ++ List.replicate 16 (.next none)

/-- Where the reload has not changed a table, the stored tables are the reloaded ones. -/
theorem tables_retry_iff_same_tables :
    let service : Service := ⟨500, ⟨1, 1⟩, fun _ _ => .done ()⟩
    let schemas : Schemas := .ofList [("s", .ofTables "s" [{ name := "t" }])]
    let stage := oneSchemaStage [{ name := "t" }]
    let first := RuleRun.after ⟨stage, (remove "r").run service "d"⟩ (List.replicate 8 (.next none))
    let later := first.stage.install (oneSchema 1 [{ name := "t" }] [])
    let second := RuleRun.after ⟨later, (remove "r").run service "d"⟩ (reloadAgain [{ name := "t" }] [])
    first.result? = some (.error (.error (.reloadTimeout "d" 500))) ∧ second.result? = some (.ok ())
      ∧ loadedTables second.stage.repository "d" "s" = .ok (schemas.tables "s") := by
  intro service schemas stage first later second
  have hstart : stage.generation.schemas "d" = schemas ∧ schemas.SelfNamed ∧ schemas.keys = ["s"]
      ∧ loadedTables stage.repository "d" "s" = .ok (schemas.tables "s") := by
    decide +kernel
  have hruns : first.result? = some (.error (.error (.reloadTimeout "d" 500)))
      ∧ second.result? = some (.ok ()) := by
    decide +kernel
  obtain ⟨hcurrent, hself, hkeys, hloaded⟩ := hstart
  have hfirst : RuleRun.after ⟨stage, (remove "r").run service "d"⟩ (List.replicate 8 (.next none))
      = first := rfl
  have hlater : later.repository = first.stage.repository := first.stage.repository_install _
  have hgeneration : later.generation = oneSchema 1 [{ name := "t" }] [] :=
    first.stage.generation_install _
  have hsecond : RuleRun.after ⟨later, (remove "r").run service "d"⟩ (reloadAgain [{ name := "t" }] [])
      = second := rfl
  clear_value stage first later second
  -- s is the only schema on either side, and its tables are stored
  have hstored : ∀ schema, schemas.contains schema = true ∨
      (stage.generation.schemas "d").contains schema = true →
        loadedTables stage.repository "d" schema
          = .ok ((stage.generation.schemas "d").tables schema) := by
    intro schema hschema
    rw [hcurrent] at hschema ⊢
    rw [or_self, ← SortedMap.mem_keys_iff, hkeys] at hschema
    obtain rfl := List.mem_singleton.1 hschema
    exact hloaded
  have hreloaded : later.generation.schemas "d" = schemas := by
    rw [hgeneration]
    rfl
  have hinstalled : ∀ g, .install g ∈ reloadAgain [{ name := "t" }] [] → g.schemas "d" = schemas := by
    intro g hg
    obtain rfl : g = oneSchema 2 [{ name := "t" }] [] := by simpa [reloadAgain] using hg
    rfl
  have hretry := tables_retry_iff service (remove "r") "d" stage later (List.replicate 8 (.next none))
    (reloadAgain [{ name := "t" }] []) schemas hself hstored (hfirst ▸ hruns.1) (hfirst ▸ hlater)
    hreloaded hinstalled (hsecond ▸ hruns.2)
  exact ⟨hruns.1, hruns.2, hsecond ▸ (hretry.1 "s").trans hloaded⟩

/-- The rule that is altered. -/
def sharding : Rule := .named ⟨"r", .ofList [("k", .bool true)]⟩

/-- **A reload that was too late can be lost.** The table of the schema is another one after the
reload, and the error of the first call says that it may be repeated. The repeated call succeeds, but
the store keeps the table of before. -/
theorem retry_not_always_reloaded :
    let service : Service := ⟨500, ⟨1, 1⟩, fun _ _ => .done ()⟩
    let call := (alter (some sharding)).run service "d"
    let stage := oneSchemaStage [{ name := "t" }]
    let first := RuleRun.after ⟨stage, call⟩ (List.replicate 16 (.next none))
    let later := first.stage.install (oneSchema 1 [{ name := "u" }] [sharding])
    let second := RuleRun.after ⟨later, call⟩ (reloadAgain [{ name := "u" }] [sharding])
    let timeout := Error.reloadTimeout "d" 500
    loadedTables stage.repository "d" "s" = .ok ((stage.generation.schemas "d").tables "s")
      ∧ first.result? = some (.error (.error timeout)) ∧ timeout.isRetryable = true
      ∧ second.result? = some (.ok ())
      ∧ loadedTables second.stage.repository "d" "s" = .ok (.ofList [("t", { name := "t" })])
      ∧ (later.generation.schemas "d").tables "s" = .ofList [("u", { name := "u" })] := by
  decide +kernel

end RuleChange

end ClusterCatalog
