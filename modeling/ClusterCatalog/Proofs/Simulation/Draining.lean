import Mathlib.Data.Nat.Find
import Mathlib.Order.Bounds.Basic
import ClusterCatalog.Simulation.Session

/-!
# A retired pool is closed once, in time

A pool that is handed over is looked at again and again until it is closed. How many of its connections
are in use when it is looked at is up to everybody else: the number may fall to zero, rise again, or
never fall. So what goes on between the looks is a parameter (`Surroundings`), which sets the clock to
the time that a look is due and changes the stage in any way it likes, except that the hand-over is the
drain's own.

* One look either makes a note of the next one and changes nothing else (`Stage.lookFor_of_again`), or it
  closes the pool and forgets the hand-over (`Stage.lookFor_of_close`).
* The looks before the one that closes are an interval apart (`Surroundings.waits`), so the time that is
  left gets less with each of them.
* The pool is closed by the first look that finds no connection in use or the time up
  (`Stage.drains_once`), and there is such a look because an interval is not empty.

In a session a drain has its turn when its look is due: its turn is one look
(`Session.stage_act_drain`), and the clock does not pass a look that is due (`Session.nextTime?_le_due`).
-/

namespace ClusterCatalog

/-- **What closing a drained pool leaves in the journal**: one closing, after a warning if connections are
cut off, and before one if it fails. -/
def Journal.drained (j : Journal) (pool : PoolId) (p : Pool) : Journal :=
  { j with
    closed := j.closed ++ [pool]
    warnings := j.warnings
      ++ (if p.active = 0 then [] else [.drainTimedOut p.url p.active])
      ++ (if p.stuck then
        [.closeFailed p.url (.poolNotClosed ("pool " ++ toString pool ++ " is stuck"))] else []) }

namespace Stage

variable {s : Stage} {number : Nat} {g : Handover}

/-- A pool as a look finds it. -/
def poolAt (s : Stage) (pool : PoolId) : Pool := (s.pools[pool]?).getD default

/-- **The look at the pool of a hand-over**, unless the pool is closed already. -/
def lookFor (number : Nat) (s : Stage) : Stage :=
  match s.handover? number with
  | some h => s.lookAt h
  | none => s

/-- The time at which the pool of a hand-over is looked at next. -/
def nextLook (number : Nat) (s : Stage) : Nat :=
  (s.handover? number).elim s.clock (·.drain.due)

theorem lookFor_of_none (h : s.handover? number = none) : s.lookFor number = s := by
  unfold lookFor
  rw [h]

/-! ### One look -/

theorem number_of_handover? (h : s.handover? number = some g) : g.number = number := by
  simpa using List.find?_some h

/-- **A look that finds connections in use and time left** makes a note of the next look. -/
theorem lookFor_of_again (h : s.handover? number = some g)
    (hactive : (s.poolAt g.drain.pool).active ≠ 0) (htime : s.clock < g.drain.deadline) :
    (∃ handovers, s.lookFor number = { s with handovers })
      ∧ (s.lookFor number).handover? number
        = some { g with drain := { g.drain with due := s.clock + g.drain.pollIntervalMs } } := by
  have hlook : s.lookFor number = { s with
      handovers := s.handovers.map fun g' => if g'.number = g.number then
        { g' with drain := { g.drain with due := s.clock + g.drain.pollIntervalMs } } else g' } := by
    unfold lookFor lookAt Drain.look
    rw [h]
    simp only [show ((s.pools[g.drain.pool]?).getD default).active ≠ 0 from hactive, if_false,
      Nat.not_le.2 htime]
  refine ⟨⟨_, hlook⟩, ?_⟩
  rw [hlook]
  unfold handover?
  rw [List.find?_map]
  -- the note changes no number, so the same hand-over is found
  have hsame : ((fun g' : Handover => g'.number == number) ∘ fun g' => if g'.number = g.number then
      { g' with drain := { g.drain with due := s.clock + g.drain.pollIntervalMs } } else g')
      = fun g' => g'.number == number := by
    funext g'
    by_cases hg' : g'.number = g.number <;> simp [hg']
  rw [hsame, show s.handovers.find? (fun g' => g'.number == number) = some g from h, Option.map_some,
    if_pos rfl]

/-- Closing a pool is only noted down, apart from the pools. -/
theorem finishDrain_eq (s : Stage) (pool : PoolId) :
    ∃ pools, s.finishDrain pool (s.poolAt pool).url
      = { s with
          pools
          journal := { s.journal with
            closed := s.journal.closed ++ [pool]
            warnings := s.journal.warnings ++ (if (s.poolAt pool).stuck then
              [.closeFailed (s.poolAt pool).url
                (.poolNotClosed ("pool " ++ toString pool ++ " is stuck"))] else []) } } := by
  unfold finishDrain closePool poolAt log warn
  -- a pool that was never opened counts as one that is not stuck
  cases hpool : s.pools[pool]? with
  | none => exact ⟨s.pools, by simp [hpool, show (default : Pool).stuck = false from rfl]⟩
  | some p =>
    cases hstuck : p.stuck with
    | true => exact ⟨s.pools, by simp [hpool, hstuck, log]⟩
    | false => exact ⟨s.pools.modify pool fun p => { p with closed := true },
        by simp [hpool, hstuck, changePool]⟩

/-- The stage without the note of a hand-over. -/
def forget (s : Stage) (g : Handover) : Stage :=
  { s with handovers := s.handovers.filter fun h => h.number ≠ g.number }

theorem handover?_forget (h : s.handover? number = some g) {s' : Stage}
    (hs' : s'.handovers = (s.forget g).handovers) : s'.handover? number = none := by
  rw [handover?, hs', List.find?_eq_none]
  intro h' hh'
  have hne : h'.number ≠ g.number := by simpa using (List.mem_filter.1 hh').2
  simpa [number_of_handover? h] using hne

/-- A pool that nobody uses is closed. -/
theorem lookFor_of_idle (h : s.handover? number = some g)
    (hactive : (s.poolAt g.drain.pool).active = 0) :
    s.lookFor number = (s.forget g).finishDrain g.drain.pool (s.poolAt g.drain.pool).url := by
  unfold lookFor lookAt Drain.look
  rw [h]
  simp only [show ((s.pools[g.drain.pool]?).getD default).active = 0 from hactive, if_true]
  rfl

/-- A pool that is in use when the time is up is closed with a warning. -/
theorem lookFor_of_late (h : s.handover? number = some g)
    (hactive : (s.poolAt g.drain.pool).active ≠ 0) (htime : g.drain.deadline ≤ s.clock) :
    s.lookFor number = ((s.forget g).warn (.drainTimedOut (s.poolAt g.drain.pool).url
      (s.poolAt g.drain.pool).active)).finishDrain g.drain.pool (s.poolAt g.drain.pool).url := by
  unfold lookFor lookAt Drain.look
  rw [h]
  simp only [show ((s.pools[g.drain.pool]?).getD default).active ≠ 0 from hactive, if_false,
    htime, if_true]
  rfl

/-- **A look that finds no connection in use or the time up** closes the pool, and it was the last. -/
theorem lookFor_of_close (h : s.handover? number = some g)
    (hend : (s.poolAt g.drain.pool).active = 0 ∨ g.drain.deadline ≤ s.clock) :
    (s.lookFor number).journal = s.journal.drained g.drain.pool (s.poolAt g.drain.pool)
      ∧ (s.lookFor number).handover? number = none := by
  by_cases hactive : (s.poolAt g.drain.pool).active = 0
  · -- nobody uses the pool
    obtain ⟨pools, hfinish⟩ := (s.forget g).finishDrain_eq g.drain.pool
    rw [(lookFor_of_idle h hactive).trans hfinish]
    refine ⟨?_, handover?_forget h rfl⟩
    unfold Journal.drained
    rw [if_pos hactive, List.append_nil]
    rfl
  · -- the time is up, and connections are cut off
    have htime : g.drain.deadline ≤ s.clock := hend.resolve_left hactive
    obtain ⟨pools, hfinish⟩ := ((s.forget g).warn (.drainTimedOut (s.poolAt g.drain.pool).url
      (s.poolAt g.drain.pool).active)).finishDrain_eq g.drain.pool
    rw [(lookFor_of_late h hactive htime).trans hfinish]
    refine ⟨?_, handover?_forget h rfl⟩
    unfold Journal.drained
    rw [if_neg hactive]
    rfl

/-! ### Handing a pool over -/

/-- **The numbers of hand-overs were given out.** Handing over and looking keep to that. -/
def NumbersGiven (s : Stage) : Prop := ∀ h ∈ s.handovers, h.number < s.handedOver

theorem NumbersGiven.handOver (h : s.NumbersGiven) (policy : DrainPolicy) (pool : PoolId) :
    (s.handOver policy pool).NumbersGiven := by
  intro g hg
  rcases List.mem_append.1 hg with hg | hg
  · exact Nat.lt_succ_of_lt (h g hg)
  · rw [List.mem_singleton.1 hg]
    exact Nat.lt_succ_self s.handedOver

/-- Looking after a hand-over gives no number. -/
theorem NumbersGiven.lookAt (h : s.NumbersGiven) (g : Handover) : (s.lookAt g).NumbersGiven := by
  -- closing a pool touches no hand-over
  have hfinish : ∀ s' : Stage, s'.NumbersGiven →
      (s'.finishDrain g.drain.pool (s'.poolAt g.drain.pool).url).NumbersGiven := by
    intro s' hs'
    obtain ⟨pools, heq⟩ := s'.finishDrain_eq g.drain.pool
    rw [heq]
    exact hs'
  unfold Stage.lookAt
  dsimp only
  split
  · intro g' hg'
    obtain ⟨g'', hg'', rfl⟩ := List.mem_map.1 hg'
    split <;> exact h g'' hg''
  · have hforgotten : ∀ g' ∈ s.handovers.filter fun g' => g'.number ≠ g.number,
        g'.number < s.handedOver := fun g' hg' => h g' (List.mem_filter.1 hg').1
    split
    · exact hfinish (Stage.warn { s with handovers := _ } _) hforgotten
    · exact hfinish { s with handovers := _ } hforgotten

/-- So the next number is a fresh one. -/
theorem NumbersGiven.fresh (h : s.NumbersGiven) : s.handover? s.handedOver = none := by
  rw [handover?, List.find?_eq_none]
  intro g hg
  simpa using Nat.ne_of_lt (h g hg)

/-- **A pool that is handed over** is looked at right away, and for the last time when the time is up. -/
theorem handover?_handOver (policy : DrainPolicy) (pool : PoolId)
    (hfresh : s.handover? s.handedOver = none) :
    (s.handOver policy pool).handover? s.handedOver
      = some ⟨s.handedOver, .start policy s.clock pool⟩ := by
  unfold handover? at hfresh ⊢
  unfold handOver
  rw [List.find?_append, hfresh, Option.none_or, List.find?_cons_of_pos (by simp)]

end Stage

/-! ### Between the looks -/

/-- **What goes on around a drain until its next look.** The clock is set to the time of the look; the
hand-over is left alone, and everything else may change, the connections in use to begin with. -/
structure Surroundings (number : Nat) where
  pass : Nat → Stage → Stage
  clock_pass : ∀ time s, (pass time s).clock = time
  handover?_pass : ∀ time s, (pass time s).handover? number = s.handover? number

namespace Surroundings

variable {number : Nat} (a : Surroundings number)

/-- What is found when the next look is due. -/
def next (s : Stage) : Stage := a.pass (s.nextLook number) s

/-- **The stages that the looks find**, from a stage where the first one is noted. -/
def found (s : Stage) : Nat → Stage
  | 0 => a.next s
  | k + 1 => a.next ((found s k).lookFor number)

/-- Where a look is noted, it finds the hand-over at the time that was noted. -/
theorem next_of_handover? {s : Stage} {g : Handover} (h : s.handover? number = some g) :
    (a.next s).handover? number = some g ∧ (a.next s).clock = g.drain.due := by
  unfold next
  refine ⟨(a.handover?_pass _ s).trans h, (a.clock_pass _ s).trans ?_⟩
  rw [Stage.nextLook, h]
  rfl

/-- Once the hand-over is gone, it does not come back. -/
theorem found_gone {s : Stage} {k : Nat}
    (h : ((a.found s k).lookFor number).handover? number = none) :
    ∀ j, k < j → (a.found s j).handover? number = none := by
  intro j hj
  induction j, hj using Nat.le_induction with
  | base => exact (a.handover?_pass _ _).trans h
  | succ j hj ih =>
    refine (a.handover?_pass _ _).trans ?_
    rw [Stage.lookFor_of_none ih]
    exact ih

/-- **While no look closes the pool** the looks are an interval apart, and the hand-over says so. -/
theorem waits {policy : DrainPolicy} {s : Stage} {start : Nat} {pool : PoolId}
    (h : s.handover? number = some ⟨number, .start policy start pool⟩) (k : Nat)
    (hopen : ∀ j < k, ¬ (((a.found s j).poolAt pool).active = 0
      ∨ policy.timeoutMs ≤ j * policy.pollIntervalMs)) :
    (a.found s k).clock = start + k * policy.pollIntervalMs
      ∧ (a.found s k).handover? number
        = some ⟨number, ⟨pool, start + k * policy.pollIntervalMs, start + policy.timeoutMs,
          policy.pollIntervalMs⟩⟩ := by
  induction k with
  | zero =>
    obtain ⟨hfound, hclock⟩ := a.next_of_handover? h
    rw [Nat.zero_mul, Nat.add_zero]
    exact ⟨hclock, hfound⟩
  | succ k ih =>
    obtain ⟨hclock, hfound⟩ := ih fun j hj => hopen j (Nat.lt_succ_of_lt hj)
    obtain ⟨hactive, htime⟩ := not_or.1 (hopen k (Nat.lt_succ_self k))
    -- the look before has found connections in use and time left
    have hearly : (a.found s k).clock < start + policy.timeoutMs := by
      rw [hclock]
      omega
    obtain ⟨-, hnoted⟩ := Stage.lookFor_of_again hfound hactive hearly
    obtain ⟨hfound', hclock'⟩ := a.next_of_handover? hnoted
    have hdue : (a.found s k).clock + policy.pollIntervalMs
        = start + (k + 1) * policy.pollIntervalMs := by
      rw [hclock, Nat.succ_mul, Nat.add_assoc]
    refine ⟨hclock'.trans hdue, hfound'.trans ?_⟩
    simp only [hdue]

end Surroundings

/-! ### The result -/

/-- **A pool that is handed over is closed once, in bounded time.** It is closed by the first look that
finds no connection in use or the time up, and looks are an interval apart from the time of the hand-over
on. The looks before change nothing but the note of the next one, and those after change nothing at all;
the one that closes leaves one closing in the journal, with a warning exactly if connections are cut off,
and another one if closing fails. -/
theorem Stage.drains_once (policy : DrainPolicy) (hinterval : 0 < policy.pollIntervalMs) (s : Stage)
    (pool : PoolId) (hfresh : s.handover? s.handedOver = none) (a : Surroundings s.handedOver) :
    let found := a.found (s.handOver policy pool)
    ∃ k, IsLeast {k | ((found k).poolAt pool).active = 0
        ∨ policy.timeoutMs ≤ k * policy.pollIntervalMs} k
      ∧ k * policy.pollIntervalMs < policy.timeoutMs + policy.pollIntervalMs
      ∧ (∀ j ≤ k, (found j).clock = s.clock + j * policy.pollIntervalMs)
      ∧ (∀ j, j ≠ k → ∃ handovers,
          (found j).lookFor s.handedOver = { found j with handovers })
      ∧ ((found k).lookFor s.handedOver).journal
          = (found k).journal.drained pool ((found k).poolAt pool)
      ∧ ∀ j, k < j → (found j).handover? s.handedOver = none := by
  intro found
  let Ends (k : Nat) : Prop := ((found k).poolAt pool).active = 0
    ∨ policy.timeoutMs ≤ k * policy.pollIntervalMs
  -- the time is up at last, because the interval is not empty
  have hends : ∃ k, Ends k := ⟨policy.timeoutMs, .inr (Nat.le_mul_of_pos_right _ hinterval)⟩
  have hdecidable : DecidablePred Ends := fun k => inferInstanceAs (Decidable (_ ∨ _))
  obtain ⟨k, hk, hfirst⟩ : ∃ k, Ends k ∧ ∀ j < k, ¬ Ends j :=
    ⟨Nat.find hends, Nat.find_spec hends, fun _ => Nat.find_min hends⟩
  have hstart := Stage.handover?_handOver policy pool hfresh
  have hwaits : ∀ j ≤ k, (found j).clock = s.clock + j * policy.pollIntervalMs
      ∧ (found j).handover? s.handedOver = some ⟨s.handedOver, ⟨pool,
        s.clock + j * policy.pollIntervalMs, s.clock + policy.timeoutMs, policy.pollIntervalMs⟩⟩ :=
    fun j hj => a.waits hstart j fun i hi => hfirst i (Nat.lt_of_lt_of_le hi hj)
  have hclose := Stage.lookFor_of_close (hwaits k le_rfl).2 <| hk.imp_right fun htime => by
    show s.clock + policy.timeoutMs ≤ (found k).clock
    rw [(hwaits k le_rfl).1]
    omega
  have hgone := a.found_gone hclose.2
  refine ⟨k, ⟨hk, fun j hj => ?_⟩, ?_, fun j hj => (hwaits j hj).1, fun j hj => ?_, hclose.1, hgone⟩
  · exact Nat.le_of_not_lt fun hlt => hfirst j hlt hj
  · -- the look before was in time
    cases k with
    | zero => omega
    | succ k =>
      obtain ⟨-, htime⟩ := not_or.1 (hfirst k (Nat.lt_succ_self k))
      rw [Nat.succ_mul]
      omega
  · rcases Nat.lt_or_gt_of_ne hj with hlt | hgt
    · obtain ⟨hactive, htime⟩ := not_or.1 (hfirst j hlt)
      refine (Stage.lookFor_of_again (hwaits j hlt.le).2 hactive ?_).1
      show (found j).clock < s.clock + policy.timeoutMs
      rw [(hwaits j hlt.le).1]
      omega
    · rw [Stage.lookFor_of_none (hgone j hgt)]
      exact ⟨_, rfl⟩

/-- Surroundings that take connections of all pools and give them back, as many as are in use at a
time. -/
def Surroundings.inUse (number : Nat) (active : Nat → Nat) : Surroundings number where
  pass time s := { s with clock := time, pools := s.pools.map fun p => { p with active := active time } }
  clock_pass _ _ := rfl
  handover?_pass _ _ := rfl

/-- A node with one pool, which cannot be closed. -/
def Stage.withStuckPool : Stage :=
  { repository := .memory ⟨∅⟩, clock := 100, pools := [{ unit := "u", url := "db", stuck := true }] }

/-- Connections are in use whenever the pool is looked at. The time is up just when it is looked at for the
third time. -/
theorem Stage.drains_once_cut_off :
    let found := (Surroundings.inUse 0 fun time => if time = 105 then 7 else 3).found
      (withStuckPool.handOver ⟨5, 10⟩ 0)
    withStuckPool.handover? 0 = none ∧ (found 2).clock = 110
      ∧ ((found 2).lookFor 0).journal.closed = [0]
      ∧ ((found 2).lookFor 0).journal.warnings
        = [.drainTimedOut "db" 3, .closeFailed "db" (.poolNotClosed "pool 0 is stuck")]
      ∧ ∀ j, j ≠ 2 → ∃ handovers, (found j).lookFor 0 = { found j with handovers } := by
  have hfresh : withStuckPool.handover? 0 = none := rfl
  obtain ⟨k, hleast, -, hclock, hquiet, hjournal, -⟩ := Stage.drains_once ⟨5, 10⟩ (by decide)
    withStuckPool 0 hfresh (Surroundings.inUse 0 fun time => if time = 105 then 7 else 3)
  -- at 100 and 105 the pool is in use and there is time; at 110 there is none left
  have htwo : k = 2 := by
    refine hleast.unique ⟨.inr (by decide), fun j hj => ?_⟩
    match j with
    | 0 => exact absurd hj (by decide)
    | 1 => exact absurd hj (by decide)
    | j + 2 => exact Nat.le_add_left 2 j
  subst htwo
  refine ⟨hfresh, hclock 2 le_rfl, ?_, ?_, hquiet⟩
  · exact congrArg Journal.closed hjournal
  · exact congrArg Journal.warnings hjournal

/-! ### Sessions -/

namespace Session

variable {α : Type}

/-- **The turn of a drain is one look.** -/
theorem stage_act_drain (s : Session α) (number : Nat) :
    (s.act (.drain number)).stage = s.stage.lookFor number := by
  unfold act Stage.lookFor
  dsimp only
  cases hfound : s.stage.handover? number with
  | none => rfl
  | some h =>
    dsimp only
    split <;> rfl

/-- **The clock does not pass a look that is due.** -/
theorem nextTime?_le_due {s : Session α} {number time : Nat} {g : Handover}
    (hwaiting : .drain number ∈ s.waiting) (hfound : s.stage.handover? number = some g)
    (htime : s.nextTime? = some time) : time ≤ g.drain.due := by
  have hwakes : g.drain.due ∈ s.waiting.filterMap fun p => p.wakeTime? s.stage := by
    refine List.mem_filterMap.2 ⟨_, hwaiting, ?_⟩
    show (s.stage.handover? number).map (fun h => h.drain.due) = some g.drain.due
    rw [hfound]
    rfl
  exact (List.min?_eq_some_iff.1 htime).2 _ hwakes

end Session

end ClusterCatalog
