import ClusterCatalog.Proofs.Cluster.Reload
import ClusterCatalog.Proofs.Store.Writers
import ClusterCatalog.Simulation.Task

/-!
# A change of rules completes on its own reload

A change of rules writes the rule, loads the stored rules and waits for a generation that is newer
than the one it was started in and has just these rules. While it waits, others install generations:
some of other databases, some with the rules of before, some that come too late. The call looks at the
current generation when it has its turn, so it can miss one that has been replaced by then.

A call is carried out as in a session, turn by turn (`CallRun`). Time passes between the turns, but not
beyond the time at which the call is due, because then it is ready.

* `CallRun.Awaits.after_cases` — a waiting call waits on, or it has had a turn at which it could go on; until
  then nothing was written.
* `RuleChange.start_eq` — the first turn of a change ends where the wait begins.
* `RuleChange.completes_on_own_reload` — the result: a change that ends well has seen its reload, and has
  written the difference between that and the generation before; one that does not see its reload in
  time fails for want of it, and has written the rule and nothing else.
-/

namespace ClusterCatalog

open Plan Repository

/-! ### What calls of the repository leave alone -/

/-- A call changes nothing. -/
def StoreRequest.Looks : StoreRequest → Prop
  | query _ | children _ | warn _ => True
  | _ => False

/-- The path of the node that is written or removed. -/
def Write.path : Write → Path
  | persist path _ => path
  | delete path => path

namespace Stage

/-- **A call** is noted down if it changes the repository; besides the repository and the journal, only
the faults are touched. -/
theorem answerStore_eq (s : Stage) (call : StoreRequest) :
    ∃ repository faults journal, (answerStore call s).2 = { s with repository, faults, journal }
      ∧ (journal = s.journal ∧ repository = s.repository ∨ journal = s.journal.noted call) := by
  let Same (s' : Stage) : Prop := ∃ repository faults journal,
    s' = { s with repository, faults, journal }
      ∧ (journal = s.journal ∧ repository = s.repository ∨ journal = s.journal.noted call)
  have hrefused : ∀ faults, Same { s with faults } := fun faults => ⟨_, _, _, rfl, .inl ⟨rfl, rfl⟩⟩
  cases call with
  | persist p v => exact s.call_rule (P := fun _ => Same) hrefused fun _ => ⟨_, _, _, rfl, .inr rfl⟩
  | query p => exact s.call_rule (P := fun _ => Same) hrefused hrefused
  | children p => exact s.call_rule (P := fun _ => Same) hrefused hrefused
  | delete p => exact s.call_rule (P := fun _ => Same) hrefused fun _ => ⟨_, _, _, rfl, .inr rfl⟩
  | warn w => exact ⟨_, _, _, rfl, .inr rfl⟩

/-- What each allowed call does to a stage, an operation on the repository does. -/
theorem run_access_rule {α : Type} {allowed : StoreRequest → Prop} {R : Stage → Stage → Prop}
    (hrefl : ∀ s, R s s) (htrans : ∀ s s' s'', R s s' → R s' s'' → R s s'')
    (hstep : ∀ call s, allowed call → R s (answerStore call s).2) {p : Access α} (h : p.Uses allowed)
    (s : Stage) : R s ((Cluster.access p).run answer s).2 := by
  induction p generalizing s with
  | done a => exact hrefl s
  | stop f => exact hrefl s
  | ask call k ih => exact htrans _ _ _ (hstep call s h.1) (ih _ (h.2 _) _)

/-- **Only what is at or below a path was written** between two stages, and neither the clock nor the
generation has moved. -/
structure Wrote (a : Path) (s s' : Stage) : Prop where
  generation : s'.generation = s.generation
  clock : s'.clock = s.clock
  writes : ∃ writes, s'.journal.writes = s.journal.writes ++ writes ∧ ∀ w ∈ writes, a.Covers w.path

/-- **An operation about what is below a path** writes only there. -/
theorem wrote_access {α : Type} {a : Path} {p : Access α} (h : p.Uses (StoreRequest.Concerns a))
    (s : Stage) : s.Wrote a ((Cluster.access p).run answer s).2 := by
  refine run_access_rule (R := Wrote a) (fun s => ⟨rfl, rfl, [], by simp, by simp⟩)
    (fun s s' s'' h h' => ?_) (fun call s hcall => ?_) h s
  · obtain ⟨ws, hws, hcovers⟩ := h.writes
    obtain ⟨ws', hws', hcovers'⟩ := h'.writes
    refine ⟨h'.generation.trans h.generation, h'.clock.trans h.clock, ws ++ ws', ?_, ?_⟩
    · rw [hws', hws, List.append_assoc]
    · exact List.forall_mem_append.2 ⟨hcovers, hcovers'⟩
  · obtain ⟨repository, faults, journal, hanswer, hjournal⟩ := s.answerStore_eq call
    rw [hanswer]
    refine ⟨rfl, rfl, ?_⟩
    show ∃ writes, journal.writes = _ ∧ _
    -- a call that is refused or only reads writes nothing
    have hnothing : ∃ writes, s.journal.writes = s.journal.writes ++ writes
        ∧ ∀ w ∈ writes, a.Covers w.path := ⟨[], by simp, by simp⟩
    rcases hjournal with ⟨rfl, -⟩ | rfl
    · exact hnothing
    · cases call with
      | persist p v => exact ⟨[.persist p v], rfl, List.forall_mem_singleton.2 hcall⟩
      | delete p => exact ⟨[.delete p], rfl, List.forall_mem_singleton.2 (Path.IsAbove.covers hcall)⟩
      | query p => exact hnothing
      | children p => exact hnothing
      | warn w => exact hnothing

/-- **Nothing is written** between two stages. -/
structure Untouched (s s' : Stage) : Prop where
  repository : s'.repository = s.repository
  writes : s'.journal.writes = s.journal.writes

theorem Untouched.refl (s : Stage) : s.Untouched s := ⟨rfl, rfl⟩

theorem Untouched.trans {s s' s'' : Stage} (h : s.Untouched s') (h' : s'.Untouched s'') :
    s.Untouched s'' := ⟨h'.repository.trans h.repository, h'.writes.trans h.writes⟩

theorem untouched_install (s : Stage) (g : Generation) : s.Untouched (s.install g) := by
  obtain ⟨warnings, hinstall, -⟩ := s.install_eq g
  rw [hinstall]
  exact ⟨rfl, rfl⟩

theorem clock_install (s : Stage) (g : Generation) : (s.install g).clock = s.clock := by
  obtain ⟨warnings, hinstall, -⟩ := s.install_eq g
  rw [hinstall]

/-- Looking and listing writes nothing. -/
theorem untouched_access {α : Type} {p : Access α} (h : p.Uses StoreRequest.Looks) (s : Stage) :
    s.Untouched ((Cluster.access p).run answer s).2 := by
  refine run_access_rule (R := Untouched) .refl (fun _ _ _ => .trans) (fun call s hcall => ?_) h s
  cases call with
  | persist p v => exact hcall.elim
  | delete p => exact hcall.elim
  | query p => exact s.call_rule (P := fun _ s' => s.Untouched s') (fun _ => ⟨rfl, rfl⟩) fun _ => ⟨rfl, rfl⟩
  | children p =>
    exact s.call_rule (P := fun _ s' => s.Untouched s') (fun _ => ⟨rfl, rfl⟩) fun _ => ⟨rfl, rfl⟩
  | warn w => exact ⟨rfl, rfl⟩

/-- **The writes of an operation** that is carried out without waiting. -/
def writesOf (s : Stage) (p : Cluster Unit) : List Write :=
  (p.run answer s).2.journal.writes.drop s.journal.writes.length

theorem Wrote.writes_eq {s : Stage} {a : Path} {p : Cluster Unit} (h : s.Wrote a (p.run answer s).2) :
    (p.run answer s).2.journal.writes = s.journal.writes ++ s.writesOf p := by
  obtain ⟨writes, hwrites, -⟩ := h.writes
  rw [writesOf, hwrites, List.drop_left]

end Stage

/-! ### Operations on the repository within a script -/

namespace Script

/-- **An operation on the repository** takes no time: a script goes on from where it has ended. -/
theorem advance_access_bind {α β : Type} (p : Access α) (f : α → Cluster β) (s : Stage) :
    (operate (Cluster.access p >>= f)).advance s
      = match (Cluster.access p).run Stage.answer s with
        | (.ok a, s) => (operate (f a)).advance s
        | (.error e, s) => (.ends (.error e), s) := by
  induction p generalizing s with
  | done a => rfl
  | stop e => rfl
  | ask call k ih => exact ih _ _

theorem advance_access {α : Type} (p : Access α) (s : Stage) :
    (operate (Cluster.access p)).advance s
      = (.ends ((Cluster.access p).run Stage.answer s).1, ((Cluster.access p).run Stage.answer s).2) := by
  have h := advance_access_bind p pure s
  rw [bind_pure] at h
  rw [h]
  generalize (Cluster.access p).run Stage.answer s = ran
  obtain ⟨a | e, s'⟩ := ran <;> rfl

/-- **Waiting for a generation** takes no time if it is there or if there is no time. -/
theorem advance_awaitGeneration {β : Type} (goal : Goal) (timeoutMs : Nat)
    (f : Option Generation → Cluster β) (s : Stage) :
    (operate (Cluster.awaitGeneration goal timeoutMs >>= f)).advance s
      = if goal.reachedBy s.generation = true then (operate (f (some s.generation))).advance s
        else if timeoutMs = 0 then (operate (f none)).advance s
        else (.waits (.awaits goal (s.clock + timeoutMs) fun found => operate (f found)), s) := by
  let reply := if goal.reachedBy s.generation then some s.generation else none
  have hask : (operate (Cluster.awaitGeneration goal timeoutMs >>= f)).advance s
      = if goal.reachedBy s.generation ∨ timeoutMs = 0 then (operate (f reply)).advance s
        else (.waits (.awaits goal (s.clock + timeoutMs) fun found => operate (f found)), s) := rfl
  rw [hask]
  -- the generation that is there counts before the time does
  by_cases hthere : goal.reachedBy s.generation = true
  · have hreply : reply = some s.generation := if_pos hthere
    rw [if_pos (.inl hthere), if_pos hthere, hreply]
  · have hreply : reply = none := if_neg hthere
    rw [if_neg hthere, hreply]
    exact if_congr (or_iff_right hthere) rfl rfl

end Script

/-! ### Calls that wait -/

/-- **What happens on a node** while a call waits. -/
inductive WaitMove where
  /-- The node installs a generation. -/
  | install (g : Generation)
  /-- Time passes. -/
  | pass (ms : Nat)
  /-- The call has a turn. -/
  | turn

/-- **A call on a node**, and where it has come to. -/
structure CallRun where
  stage : Stage
  course : Course Unit

namespace CallRun

/-- A call after its first turn. -/
def start (call : Cluster Unit) (stage : Stage) : CallRun :=
  let (course, stage) := (Script.operate call).advance stage
  ⟨stage, course⟩

/-- The time at which a waiting call is due, whatever happens until then. -/
def due? (run : CallRun) : Option Nat :=
  match run.course with
  | .waits task => task.wakeTime?
  | .ends _ => none

/-- The run after a move. A turn is given away as long as the call has to wait. -/
def step (run : CallRun) : WaitMove → CallRun
  | .install g => { run with stage := run.stage.install g }
  | .pass ms =>
    let time := run.stage.clock + ms
    { run with stage := { run.stage with clock := run.due?.elim time (min time) } }
  | .turn =>
    match run.course with
    | .waits task =>
      if task.canGoOn run.stage then
        let (course, stage) := task.resume run.stage
        ⟨stage, course⟩
      else run
    | .ends _ => run

/-- The run after all moves. -/
def after (run : CallRun) (moves : List WaitMove) : CallRun := moves.foldl step run

/-- The result of the call, if it is over. -/
def result? (run : CallRun) : Option (Except Failure Unit) :=
  match run.course with
  | .waits _ => none
  | .ends result => some result

variable {run : CallRun} {goal : Goal} {till : Nat} {next : Option Generation → Script Unit}

theorem after_append (run : CallRun) (moves later : List WaitMove) :
    run.after (moves ++ later) = (run.after moves).after later := List.foldl_append

/-- **A call that is over** stays so, and nothing more is written. -/
theorem after_of_ended {result : Except Failure Unit} (h : run.course = .ends result)
    (moves : List WaitMove) :
    (run.after moves).course = .ends result ∧ run.stage.Untouched (run.after moves).stage := by
  induction moves generalizing run with
  | nil => exact ⟨h, .refl _⟩
  | cons move moves ih =>
    have hstep : (run.step move).course = .ends result ∧ run.stage.Untouched (run.step move).stage := by
      -- a turn finds nothing to do any more; the other moves are not its own
      cases move with
      | install g => exact ⟨h, run.stage.untouched_install g⟩
      | pass ms => exact ⟨h, rfl, rfl⟩
      | turn =>
        have hstep : run.step .turn = run := by rw [step, h]
        rw [hstep]
        exact ⟨h, .refl _⟩
    obtain ⟨hcourse, hsame⟩ := ih hstep.1
    exact ⟨hcourse, hstep.2.trans hsame⟩

/-- **A call waits for a generation**, and its time is not over. -/
structure Awaits (run : CallRun) (goal : Goal) (till : Nat) (next : Option Generation → Script Unit) :
    Prop where
  course : run.course = .waits (.awaits goal till next)
  clock : run.stage.clock ≤ till

/-- Whether a waiting call that has a turn goes on. -/
def Due (run : CallRun) (goal : Goal) (till : Nat) : Prop :=
  goal.reachedBy run.stage.generation = true ∨ till ≤ run.stage.clock

theorem canGoOn_iff {run : CallRun} :
    (Task.awaits goal till next).canGoOn run.stage = true ↔ run.Due goal till := by
  simp [Task.canGoOn, Due]

/-- A turn of a call that is due. -/
theorem Awaits.step_turn (h : run.Awaits goal till next) (hdue : run.Due goal till) :
    run.step .turn =
      let reply := if goal.reachedBy run.stage.generation then some run.stage.generation else none
      ⟨((next reply).advance run.stage).2, ((next reply).advance run.stage).1⟩ := by
  rw [step, h.course]
  show (if (Task.awaits goal till next).canGoOn run.stage = true then _ else _) = _
  rw [if_pos (canGoOn_iff.2 hdue)]
  rfl

/-- **A turn at which a call is due**, if the call has nothing else to wait for, is its last. -/
theorem Awaits.after_turn (h : run.Awaits goal till next) (hdue : run.Due goal till)
    {result : Except Failure Unit} {s : Stage}
    (hends : (next (if goal.reachedBy run.stage.generation then some run.stage.generation
      else none)).advance run.stage = (.ends result, s)) (later : List WaitMove) :
    (run.after (.turn :: later)).course = .ends result
      ∧ s.Untouched (run.after (.turn :: later)).stage := by
  have hstep : run.step .turn = ⟨s, .ends result⟩ := by
    rw [h.step_turn hdue]
    show CallRun.mk (Script.advance _ _).2 (Script.advance _ _).1 = _
    rw [hends]
  show ((run.step .turn).after later).course = _ ∧ s.Untouched ((run.step .turn).after later).stage
  rw [hstep]
  exact after_of_ended rfl later

/-- **One move** leaves a call waiting that is not due or has no turn. -/
theorem Awaits.step (h : run.Awaits goal till next) {move : WaitMove}
    (hmove : move = .turn → ¬ run.Due goal till) :
    (run.step move).Awaits goal till next ∧ run.stage.Untouched (run.step move).stage := by
  cases move with
  | install g =>
    refine ⟨⟨h.course, ?_⟩, run.stage.untouched_install g⟩
    show (run.stage.install g).clock ≤ till
    rw [run.stage.clock_install g]
    exact h.clock
  -- time passes at most to the end of the wait, which is the next event of the run
  | pass ms =>
    refine ⟨⟨h.course, ?_⟩, rfl, rfl⟩
    show run.due?.elim _ _ ≤ till
    rw [due?, h.course]
    exact Nat.min_le_right _ _
  | turn =>
    -- a turn before the wait is due changes nothing
    have hstep : run.step .turn = run := by
      rw [CallRun.step, h.course]
      exact if_neg fun hgo => hmove rfl (canGoOn_iff.1 hgo)
    rw [hstep]
    exact ⟨h, .refl _⟩

/-- **A waiting call** waits on, or it has had a turn at which it was due. Until then nothing was
written. -/
theorem Awaits.after_cases (h : run.Awaits goal till next) (moves : List WaitMove) :
    ((run.after moves).Awaits goal till next ∧ run.stage.Untouched (run.after moves).stage
        ∧ ∀ before later, moves = before ++ .turn :: later → ¬ (run.after before).Due goal till)
      ∨ ∃ before later, moves = before ++ .turn :: later
        ∧ (run.after before).Awaits goal till next ∧ run.stage.Untouched (run.after before).stage
        ∧ (run.after before).Due goal till := by
  induction moves generalizing run with
  | nil => exact .inl ⟨h, .refl _, fun before later heq => by simp at heq⟩
  | cons move moves ih =>
    -- the first turn that finds the wait due splits the moves
    by_cases hmove : move = .turn ∧ run.Due goal till
    · obtain ⟨rfl, hdue⟩ := hmove
      exact .inr ⟨[], moves, rfl, h, .refl _, hdue⟩
    obtain ⟨hwaits, hsame⟩ := h.step fun hturn hdue => hmove ⟨hturn, hdue⟩
    rcases ih hwaits with ⟨hafter, hsame', hnever⟩ | ⟨before, later, rfl, hbefore, hsame', hdue⟩
    · refine .inl ⟨hafter, hsame.trans hsame', fun before later heq => ?_⟩
      cases before with
      | nil =>
        obtain ⟨rfl, -⟩ := List.cons_eq_cons.1 heq
        exact fun hdue => hmove ⟨rfl, hdue⟩
      | cons first before =>
        obtain ⟨rfl, hrest⟩ := List.cons_eq_cons.1 heq
        exact hnever before later hrest
    · exact .inr ⟨move :: before, later, rfl, hbefore, hsame.trans hsame', hdue⟩

end CallRun

/-! ### Changes of rules -/

/-- **A generation is the reload** that a change waits for which was started in the generation `before`
and has loaded the rules: it is newer, and the database has these rules in it. -/
def Generation.Reloads (before : Generation) (db : String) (rules : List Rule) (g : Generation) : Prop :=
  before.number < g.number ∧ ∃ d, g.databases.get? db = some d ∧ (d.rules == RuleSet.ofList rules) = true

theorem Generation.reachedBy_reloaded_iff {before g : Generation} {db : String} {rules : List Rule} :
    (Goal.reloaded db (.ofList rules) before.number).reachedBy g = true ↔ before.Reloads db rules g := by
  simp [Goal.reachedBy, Reloads, Option.any_eq_true]

namespace RuleChange

/-- A change of a rule that is none does not act. -/
def Acts : RuleChange → Prop
  | alter rule => rule.isSome
  | removeItems rule => rule.isSome
  | remove _ => True

instance (change : RuleChange) : Decidable change.Acts := by
  cases change <;> unfold Acts <;> infer_instance

variable {service : Service} {db : String} {change : RuleChange} {stage committed loaded : Stage}
  {rules : List Rule}

/-- **A change that acts** takes the current generation, writes the change, waits for the reload and
writes it. -/
theorem run_of_acts (h : change.Acts) :
    change.run service db = (Cluster.current >>= fun before =>
      Cluster.access (change.write db) >>= fun _ =>
        service.awaitReload db before >>= fun reload =>
          Cluster.access (change.writeReload db (reload.schemas db) (before.schemas db))) := by
  cases change with
  | alter rule =>
    obtain ⟨rule, rfl⟩ := Option.isSome_iff_exists.1 h
    rfl
  | removeItems rule =>
    obtain ⟨rule, rfl⟩ := Option.isSome_iff_exists.1 h
    rfl
  | remove rule => rfl

/-- How a change goes on that has waited for its reload. -/
def onReload (service : Service) (db : String) (change : RuleChange) (before : Generation) :
    Option Generation → Cluster Unit
  | some reload => Cluster.access (change.writeReload db (reload.schemas db) (before.schemas db))
  | none => .fail (.reloadTimeout db service.reloadTimeoutMs)

/-- **The first turn of a change** ends where the wait begins. The generation that is waited for is
newer than the one of the start, so it is never there already. -/
theorem start_eq (service : Service) (hacts : change.Acts)
    (hcommit : (Cluster.access (change.write db)).run Stage.answer stage = (.ok (), committed))
    (hload : (Cluster.access (Stored.loadRules db)).run Stage.answer committed = (.ok rules, loaded))
    (hgeneration : loaded.generation = stage.generation) :
    CallRun.start (change.run service db) stage
      = if service.reloadTimeoutMs = 0 then
          ⟨loaded, .ends (.error (.error (.reloadTimeout db service.reloadTimeoutMs)))⟩
        else
          ⟨loaded, .waits (.awaits (.reloaded db (.ofList rules) stage.generation.number)
            (loaded.clock + service.reloadTimeoutMs)
            fun found => .operate (change.onReload service db stage.generation found))⟩ := by
  have hwait : (Script.operate (change.run service db)).advance stage
      = (Script.operate (Cluster.awaitGeneration
          (.reloaded db (.ofList rules) stage.generation.number) service.reloadTimeoutMs
          >>= change.onReload service db stage.generation)).advance loaded := by
    -- writing the change and loading the rules take no time, so one turn goes through both
    rw [run_of_acts hacts]
    show (Script.operate (Cluster.access (change.write db) >>= _)).advance stage = _
    rw [Script.advance_access_bind, hcommit]
    show (Script.operate (service.awaitReload db stage.generation >>= _)).advance committed = _
    unfold Service.awaitReload
    rw [bind_assoc, Script.advance_access_bind, hload]
    show (Script.operate (_ >>= _)).advance loaded = _
    rw [bind_assoc]
    congr 3
    funext found
    cases found <;> rfl
  have hnotYet : (Goal.reloaded db (.ofList rules) stage.generation.number).reachedBy
      loaded.generation = false := by
    -- no generation was installed within the turn
    rw [hgeneration, ← Bool.not_eq_true, Generation.reachedBy_reloaded_iff]
    exact fun h => h.1.false
  unfold CallRun.start
  rw [hwait, Script.advance_awaitGeneration, hnotYet, if_neg Bool.false_ne_true]
  by_cases hzero : service.reloadTimeoutMs = 0
  · rw [if_pos hzero, if_pos hzero]
    rfl
  · rw [if_neg hzero, if_neg hzero]

/-- **A change waits** for the reload that follows a generation. -/
def AwaitsReload (service : Service) (db : String) (change : RuleChange) (before : Generation)
    (rules : List Rule) (deadline : Nat) (run : CallRun) : Prop :=
  run.Awaits (.reloaded db (.ofList rules) before.number) deadline
    fun found => .operate (change.onReload service db before found)

section Waiting

variable {before : Generation} {deadline : Nat} {run : CallRun}

/-- What is written of the reload that a stage has now. -/
abbrev writing (db : String) (change : RuleChange) (before : Generation) (seen : Stage) : Cluster Unit :=
  Cluster.access (change.writeReload db (seen.generation.schemas db) (before.schemas db))

/-- **A turn at which the reload is there**: it is written, and the call is over. -/
theorem AwaitsReload.after_turn_of_reloads
    (h : AwaitsReload service db change before rules deadline run)
    (hreloads : before.Reloads db rules run.stage.generation) (later : List WaitMove) :
    let written := (change.writing db before run.stage).run Stage.answer run.stage
    (run.after (.turn :: later)).course = .ends written.1
      ∧ written.2.Untouched (run.after (.turn :: later)).stage := by
  have hreached := Generation.reachedBy_reloaded_iff.2 hreloads
  refine h.after_turn (.inl hreached) ?_ later
  rw [if_pos hreached]
  exact Script.advance_access _ run.stage

/-- **A turn at which the time is over** and the reload is not there: the call fails. -/
theorem AwaitsReload.after_turn_of_late
    (h : AwaitsReload service db change before rules deadline run)
    (hlate : deadline ≤ run.stage.clock)
    (hnone : ¬ before.Reloads db rules run.stage.generation) (later : List WaitMove) :
    (run.after (.turn :: later)).course
        = .ends (.error (.error (.reloadTimeout db service.reloadTimeoutMs)))
      ∧ run.stage.Untouched (run.after (.turn :: later)).stage := by
  refine h.after_turn (.inr hlate) ?_ later
  rw [if_neg fun hreached => hnone (Generation.reachedBy_reloaded_iff.1 hreached)]
  rfl

/-- A change that is not over waits still. -/
theorem AwaitsReload.after (h : AwaitsReload service db change before rules deadline run)
    {moves : List WaitMove} (hresult : (run.after moves).result? = none) :
    AwaitsReload service db change before rules deadline (run.after moves) := by
  rcases h.after_cases moves with ⟨hwaits, -⟩ | ⟨first, later, rfl, hwaits, -, hdue⟩
  · exact hwaits
  -- a turn at which it was due would have been its last
  have hwaits : AwaitsReload service db change before rules deadline (run.after first) := hwaits
  rw [CallRun.after_append] at hresult
  by_cases hreloads : before.Reloads db rules (run.after first).stage.generation
  · rw [CallRun.result?, (hwaits.after_turn_of_reloads hreloads later).1] at hresult
    cases hresult
  · have hlate := hdue.resolve_left fun h => hreloads (Generation.reachedBy_reloaded_iff.1 h)
    rw [CallRun.result?, (hwaits.after_turn_of_late hlate hreloads later).1] at hresult
    cases hresult

/-- A change that has a turn, while it waits, at which its reload is there ends as writing it
ends. -/
theorem AwaitsReload.result_of_reloads
    (h : AwaitsReload service db change before rules deadline run) {earlier later : List WaitMove}
    (hresult : (run.after earlier).result? = none)
    (hreloads : before.Reloads db rules (run.after earlier).stage.generation) :
    (run.after (earlier ++ .turn :: later)).result?
      = some ((change.writing db before (run.after earlier).stage).run Stage.answer
          (run.after earlier).stage).1 := by
  rw [CallRun.after_append, CallRun.result?,
    ((h.after hresult).after_turn_of_reloads hreloads later).1]

/-- **How a wait goes.** The change waits still, and has had no turn after its time; or it has had a
turn at which its reload was there, and has written the difference; or it has failed and written
nothing. -/
theorem AwaitsReload.outcome (h : AwaitsReload service db change before rules deadline run)
    (moves : List WaitMove) :
    ((run.after moves).result? = none ∧ run.stage.Untouched (run.after moves).stage
        ∧ ∀ earlier later, moves = earlier ++ .turn :: later →
            (run.after earlier).stage.clock < deadline)
      ∨ (∃ earlier later, moves = earlier ++ .turn :: later
        ∧ AwaitsReload service db change before rules deadline (run.after earlier)
        ∧ before.Reloads db rules (run.after earlier).stage.generation
        ∧ (run.after moves).stage.journal.writes = run.stage.journal.writes
            ++ (run.after earlier).stage.writesOf (change.writing db before (run.after earlier).stage))
      ∨ (run.after moves).result?
          = some (.error (.error (.reloadTimeout db service.reloadTimeoutMs)))
        ∧ run.stage.Untouched (run.after moves).stage := by
  -- until its turn comes the call waits, and the writes stay as they are
  rcases h.after_cases moves with ⟨hfinal, hsame, hnever⟩ | ⟨earlier, later, rfl, hwaits, hsame, hdue⟩
  · refine .inl ⟨by rw [CallRun.result?, hfinal.course], hsame, fun earlier later hmoves => ?_⟩
    exact Nat.lt_of_not_le fun hlate => hnever earlier later hmoves (.inr hlate)
  have hwaits : AwaitsReload service db change before rules deadline (run.after earlier) := hwaits
  rw [CallRun.after_append]
  by_cases hreloads : before.Reloads db rules (run.after earlier).stage.generation
  · -- the turn finds the reload there, and the rest of the change is to write it
    obtain ⟨-, hwritten⟩ := hwaits.after_turn_of_reloads hreloads later
    refine .inr (.inl ⟨earlier, later, rfl, hwaits, hreloads, ?_⟩)
    calc ((run.after earlier).after (.turn :: later)).stage.journal.writes
        = ((change.writing db before (run.after earlier).stage).run Stage.answer
            (run.after earlier).stage).2.journal.writes := hwritten.writes
      _ = (run.after earlier).stage.journal.writes
            ++ (run.after earlier).stage.writesOf
              (change.writing db before (run.after earlier).stage) :=
          (Stage.wrote_access (change.uses_writeReload _ _) _).writes_eq
      _ = _ := by rw [hsame.writes]
  · -- the turn was due because the time was over
    have hlate := hdue.resolve_left fun h => hreloads (Generation.reachedBy_reloaded_iff.1 h)
    obtain ⟨hcourse, hkept⟩ := hwaits.after_turn_of_late hlate hreloads later
    exact .inr (.inr ⟨by rw [CallRun.result?, hcourse], hsame.trans hkept⟩)

end Waiting

/-- **Where the wait begins**: what was written by then is apart from the schemas, nothing was written
since, and the change waits, unless there is no time to wait. -/
theorem start_waits (service : Service) (hacts : change.Acts)
    (hcommit : (Cluster.access (change.write db)).run Stage.answer stage = (.ok (), committed))
    (hload : (Cluster.access (Stored.loadRules db)).run Stage.answer committed = (.ok rules, loaded)) :
    let start := CallRun.start (change.run service db) stage
    (∃ writes, committed.journal.writes = stage.journal.writes ++ writes
        ∧ ∀ w ∈ writes, w.path.Apart (Path.schemas db))
      ∧ committed.Untouched start.stage
      ∧ (start.course = .ends (.error (.error (.reloadTimeout db service.reloadTimeoutMs)))
        ∨ AwaitsReload service db change stage.generation rules
          (stage.clock + service.reloadTimeoutMs) start) := by
  intro start
  -- writing the change stays below the rules; loading them writes nothing at all
  have hwritten : stage.Wrote (Path.databaseRules db) committed := by
    have h := stage.wrote_access (a := Path.databaseRules db) change.uses_write
    rwa [hcommit] at h
  have hread : committed.Wrote (Path.databaseRules db) loaded := by
    have h := committed.wrote_access (Stored.uses_loadRules db)
    rwa [hload] at h
  have hlooked : committed.Untouched loaded := by
    have h := committed.untouched_access (p := Stored.loadRules db)
      (Stored.uses_loadRules_of trivial (fun _ => trivial)
        fun _ _ => Item.uses_activeValue_of trivial fun _ => trivial)
    rwa [hload] at h
  have hstart := start_eq service hacts hcommit hload
    (hread.generation.trans hwritten.generation)
  have hclock : loaded.clock = stage.clock := hread.clock.trans hwritten.clock
  have hapart : ∃ writes, committed.journal.writes = stage.journal.writes ++ writes
      ∧ ∀ w ∈ writes, w.path.Apart (Path.schemas db) := by
    have hschemas : (Path.databaseRules db).Apart (Path.schemas db) :=
      Path.apart_child (by decide) (by decide) (by decide)
    obtain ⟨writes, hwrites, hcovers⟩ := hwritten.writes
    exact ⟨writes, hwrites, fun w hw => hschemas.mono (hcovers w hw) (.refl _)⟩
  refine ⟨hapart, ?_⟩
  show committed.Untouched (CallRun.start _ _).stage ∧ ((CallRun.start _ _).course = _ ∨ _)
  -- without any time to wait the change fails in the turn in which it would begin to
  by_cases hzero : service.reloadTimeoutMs = 0
  · rw [hstart, if_pos hzero]
    exact ⟨hlooked, .inl rfl⟩
  · rw [if_neg hzero, hclock] at hstart
    rw [hstart]
    refine ⟨hlooked, .inr ⟨?_, ?_⟩⟩
    · show (CallRun.start _ _).course = _
      rw [hstart]
    · show (CallRun.start _ _).stage.clock ≤ _
      rw [hstart]
      exact hclock.trans_le (Nat.le_add_right _ _)

/-- **A change of rules completes exactly on its own reload.** The change is written and the rules are
loaded; then it waits, while generations are installed, time passes and it has its turns.

* What it has written by then is apart from the schemas of the database.
* If it ends well, it has had a turn within its time at which the current generation was the reload,
  and it has written the difference between the schemas of that generation and those of the start.
* If no generation within its time is the reload, nothing is written any more, and it fails for want of
  the reload as soon as it has a turn when its time is over.
* If it has a turn, while it waits, at which the current generation is the reload, it ends as writing
  the reload ends. -/
theorem completes_on_own_reload (service : Service) (change : RuleChange) (db : String)
    (stage committed loaded : Stage) (rules : List Rule) (moves : List WaitMove) (hacts : change.Acts)
    (hcommit : (Cluster.access (change.write db)).run Stage.answer stage = (.ok (), committed))
    (hload : (Cluster.access (Stored.loadRules db)).run Stage.answer committed = (.ok rules, loaded)) :
    let start := CallRun.start (change.run service db) stage
    let final := start.after moves
    let deadline := stage.clock + service.reloadTimeoutMs
    let timeout : Except Failure Unit := .error (.error (.reloadTimeout db service.reloadTimeoutMs))
    let IsReload := stage.generation.Reloads db rules
    let writing (seen : Stage) : Cluster Unit := Cluster.access
      (change.writeReload db (seen.generation.schemas db) (stage.generation.schemas db))
    (∃ writes, committed.journal.writes = stage.journal.writes ++ writes
        ∧ ∀ w ∈ writes, w.path.Apart (Path.schemas db))
      ∧ (final.result? = some (.ok ()) → ∃ before later, moves = before ++ .turn :: later
          ∧ let seen := (start.after before).stage
            (start.after before).result? = none ∧ seen.clock ≤ deadline ∧ IsReload seen.generation
              ∧ final.stage.journal.writes = committed.journal.writes ++ seen.writesOf (writing seen))
      ∧ ((∀ before later, moves = before ++ later → (start.after before).stage.clock ≤ deadline →
            ¬ IsReload (start.after before).stage.generation) →
          final.stage.repository = committed.repository
            ∧ final.stage.journal.writes = committed.journal.writes
            ∧ (final.result? = none ∨ final.result? = some timeout)
            ∧ ∀ before later, moves = before ++ .turn :: later →
                deadline ≤ (start.after before).stage.clock → final.result? = some timeout)
      ∧ ∀ before later, moves = before ++ .turn :: later →
          let seen := (start.after before).stage
          (start.after before).result? = none → IsReload seen.generation →
            final.result? = some ((writing seen).run Stage.answer seen).1 := by
  intro start final deadline timeout IsReload writing
  -- what is written first is apart from the schemas; from there on it is the wait that counts
  obtain ⟨hapart, hlooked, hstart⟩ := start_waits service hacts hcommit hload
  refine ⟨hapart, ?_⟩
  have hfails : some timeout ≠ some (.ok ()) := by simp [timeout]
  rcases hstart with hended | hwaits
  · -- there was no time to wait
    have hover : ∀ moves, (start.after moves).result? = some timeout := by
      intro moves
      rw [CallRun.result?, (CallRun.after_of_ended hended moves).1]
    have hsame := hlooked.trans (CallRun.after_of_ended hended moves).2
    refine ⟨fun hok => ?_, fun _ => ⟨hsame.repository, hsame.writes, .inr (hover moves),
      fun _ _ _ _ => hover moves⟩, fun before later _ hresult => ?_⟩
    · exact absurd ((hover moves).symm.trans hok) hfails
    · cases (hover before).symm.trans hresult
  have hcompletes : ∀ before later, moves = before ++ .turn :: later →
      (start.after before).result? = none → IsReload (start.after before).stage.generation →
        final.result? = some ((writing (start.after before).stage).run Stage.answer
          (start.after before).stage).1 := by
    rintro before later rfl hresult hreload
    exact hwaits.result_of_reloads hresult hreload
  rcases hwaits.outcome moves with ⟨hnone, hsame, htime⟩ | ⟨first, later, hmoves, hfirst, hreload, hwrites⟩
    | ⟨htimeout, hsame⟩
  · -- it waits still
    have hsame := hlooked.trans hsame
    refine ⟨fun hok => ?_, fun _ => ⟨hsame.repository, hsame.writes, .inl hnone,
      fun before later hmoves hlate => ?_⟩, hcompletes⟩
    · cases hnone.symm.trans hok
    · exact absurd hlate (Nat.not_le_of_lt (htime before later hmoves))
  · -- it has gone on with its reload
    refine ⟨fun _ => ⟨first, later, hmoves, ?_, hfirst.clock, hreload, ?_⟩,
      fun hnone => absurd hreload (hnone first _ hmoves hfirst.clock), hcompletes⟩
    · rw [CallRun.result?, hfirst.course]
    · exact hwrites.trans (by rw [hlooked.writes])
  · -- it has gone on when its time was over
    have hsame := hlooked.trans hsame
    refine ⟨fun hok => ?_, fun _ => ⟨hsame.repository, hsame.writes, .inr htimeout,
      fun _ _ _ _ => htimeout⟩, hcompletes⟩
    exact absurd (htimeout.symm.trans hok) hfails

/-- A node on which the database has a rule and a table. -/
def oneRuleStage : Stage where
  repository := .memory ⟨∅⟩
  generation := oneSchema 0 [{ name := "u" }] [sharding]

/-- While the call waits, a generation comes that is newer but has the rule still; the call has a turn
and waits on. Then time passes, and the reload comes. -/
def staleFirst : List WaitMove :=
  [.install (oneSchema 1 [] [sharding]), .turn, .pass 3, .install (oneSchema 2 [] []), .turn]

/-- A change that has waited past a generation with stale rules has seen its reload. -/
theorem completes_on_own_reload_past_stale :
    let service : Service := ⟨5, ⟨1, 1⟩, fun _ _ => .done ()⟩
    let change := remove "r"
    let committed := (Cluster.access (change.write "d")).run Stage.answer oneRuleStage
    let loaded := (Cluster.access (Stored.loadRules "d")).run Stage.answer committed.2
    let start := CallRun.start (change.run service "d") oneRuleStage
    change.Acts ∧ committed.1 = .ok () ∧ loaded.1.isOk = true
      ∧ (start.after (staleFirst.take 3)).result? = none ∧ (start.after staleFirst).result? = some (.ok ())
      ∧ ∃ rules before later, loaded.1 = .ok rules ∧ staleFirst = before ++ .turn :: later
          ∧ (start.after before).stage.clock ≤ 5
          ∧ oneRuleStage.generation.Reloads "d" rules (start.after before).stage.generation := by
  intro service change committed loaded start
  -- the first installation is stale and the call waits on; the second one is its reload
  have hruns : change.Acts ∧ committed.1 = .ok () ∧ loaded.1.isOk = true
      ∧ (start.after (staleFirst.take 3)).result? = none
      ∧ (start.after staleFirst).result? = some (.ok ()) := by
    decide +kernel
  have hcommitted : (Cluster.access (change.write "d")).run Stage.answer oneRuleStage = committed := rfl
  have hloaded : (Cluster.access (Stored.loadRules "d")).run Stage.answer committed.2 = loaded := rfl
  have hstart : CallRun.start (change.run service "d") oneRuleStage = start := rfl
  have hdeadline : oneRuleStage.clock + service.reloadTimeoutMs = 5 := rfl
  clear_value start loaded committed change service
  obtain ⟨hacts, hcommit, hload, hwaits, hok⟩ := hruns
  obtain ⟨rules, hrules⟩ : ∃ rules, loaded.1 = .ok rules := by
    cases h : loaded.1 with
    | ok rules => exact ⟨rules, rfl⟩
    | error e => rw [h] at hload; cases hload
  obtain ⟨-, hcompletes, -⟩ := completes_on_own_reload service change "d" oneRuleStage committed.2
    loaded.2 rules staleFirst hacts (hcommitted.trans (Prod.ext hcommit rfl))
    (hloaded.trans (Prod.ext hrules rfl))
  rw [hstart, hdeadline] at hcompletes
  obtain ⟨before, later, hmoves, -, hintime, hreload, -⟩ := hcompletes hok
  exact ⟨hacts, hcommit, hload, hwaits, hok, rules, before, later, hrules, hmoves, hintime, hreload⟩

end RuleChange

end ClusterCatalog
