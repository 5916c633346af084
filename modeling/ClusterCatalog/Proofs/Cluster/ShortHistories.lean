import ClusterCatalog.Proofs.Cluster.Tidy

/-!
# Histories stay short in every run

Administrative operations run on one node, in any number and started at any time. An operation that
has begun goes on alone until it gives way, where it opens a pool or waits for a generation. The
repository refuses nothing; pools may not open, generations may not be built or not come in time, and
the observer of the node may fail. The node may load any generation meanwhile.

* `Stage.Stepped` — what answering one request leads to, if what is owed for it holds: the terms are
  kept, and an item has no more numbers than revisions were written to it.
* `HistoryRun.Steady` — the invariant of a run: the operation that has the turn keeps to its terms from
  here on, the others from wherever the repository is tidy.
* `HistoryRun.stays_short` — the result: no item ever has more than two revisions, and whenever no
  operation has the turn, each item that is there has one, the active one.
-/

namespace ClusterCatalog

open Plan Repository

/-! ### What is recorded -/

/-- Whether a revision of an item was written. -/
def Write.isRevisionOf (path : Path) : Write → Bool
  | .persist p _ => (Item.revisionName? path p).isSome
  | .delete _ => false

/-- **How often revisions of an item were written.** -/
def Journal.revisionWrites (j : Journal) (path : Path) : Nat :=
  j.writes.countP (Write.isRevisionOf path)

theorem Journal.revisionWrites_mono {j j' : Journal} (h : j.writes <+: j'.writes) (path : Path) :
    j.revisionWrites path ≤ j'.revisionWrites path := h.sublist.countP_le

theorem Journal.writes_noted (j : Journal) (call : StoreRequest) : j.writes <+: (j.noted call).writes := by
  cases call with
  | persist p v => exact List.prefix_append _ _
  | delete p => exact List.prefix_append _ _
  | _ => exact List.prefix_rfl

/-! ### Answers on a shared node -/

namespace Stage

variable {s : Stage}

/-- **How a request is answered on a shared node** whose repository refuses nothing: builds, openings,
waiting and the observer can fail. -/
def answerShared (failure : Option Error) (r : ClusterRequest) (s : Stage) : r.Reply × Stage :=
  match failure, r with
  | some _, .awaitGeneration .. => (none, s)
  | some e, .announce .. => (.error e, s)
  | failure, r => s.answerReliably failure r

variable (failure : Option Error)

theorem leadsTo_answerShared (r : ClusterRequest) :
    s.LeadsTo (fun _ => False) r (s.answerShared failure r) := by
  unfold answerShared
  split
  · exact .notFound _ _
  · exact .announced _ _ _ rfl rfl
  · exact s.leadsTo_answerReliably failure r

/-- What was written stays recorded, whatever is answered. -/
theorem writes_answerShared (r : ClusterRequest) (s : Stage) :
    s.journal.writes <+: (s.answerShared failure r).2.journal.writes := by
  have hcall : ∀ {α : Type} (kind : CallKind) (path : Path) (answer : Repository → α)
      (change : Stage → Stage), (∀ s : Stage, s.journal.writes <+: (change s).journal.writes) →
      s.journal.writes <+: (s.call kind path answer change).2.journal.writes := fun _ _ _ _ hchange =>
    s.call_rule (P := fun _ s' => s.journal.writes <+: s'.journal.writes)
      (fun _ => List.prefix_rfl) fun faults => hchange { s with faults }
  have h := s.leadsTo_answerShared failure r
  generalize s.answerShared failure r = answered at h ⊢
  -- only calls that write add to the journal, and none of the requests takes anything from it
  cases h with
  | answered call =>
    cases call with
    | persist p v => exact hcall _ _ _ _ fun _ => List.prefix_append _ _
    | delete p => exact hcall _ _ _ _ fun _ => List.prefix_append _ _
    | query p => exact hcall _ _ _ _ fun _ => List.prefix_rfl
    | children p => exact hcall _ _ _ _ fun _ => List.prefix_rfl
    | warn w => exact List.prefix_rfl
  | announced db event reply hwrites => exact hwrites ▸ List.prefix_rfl
  | _ => exact List.prefix_rfl

end Stage

/-! ### One request -/

/-- A text that is written counts if it is that of a revision. -/
theorem Journal.revisionWrites_persist (j : Journal) (item p v : String) :
    (j.noted (.persist p v)).revisionWrites item
      = j.revisionWrites item + if (Item.revisionName? item p).isSome then 1 else 0 := by
  unfold Journal.revisionWrites
  show (j.writes ++ [Write.persist p v]).countP _ = _
  rw [List.countP_append, List.countP_singleton]
  rfl

/-- **Revisions are numbered within the count of those written.** -/
theorem Item.Below.answer {r : Repository} {x : VersionedItem} (hx : x.Named) {j : Journal}
    (h : Item.Below r x.path (j.revisionWrites x.path)) {call : StoreRequest} (hcall : call.Mindful r) :
    Item.Below (Repository.answer call r).2 x.path ((j.noted call).revisionWrites x.path) := by
  cases call with
  | persist p v =>
    intro n hn
    rw [j.revisionWrites_persist]
    by_cases hcovers : (Path.version x.path n).Covers p
    · -- the revision is the one that is written, and the one before it is there
      obtain ⟨rfl, hpred⟩ := hcall x hx n hcovers
      rw [Item.revisionName?_version]
      by_cases hzero : n = 0
      · exact hzero ▸ Nat.succ_pos _
      · have := h _ (hpred hzero)
        simp
        omega
    · have hold : Item.Present r x.path n := by
        unfold Item.Present at hn ⊢
        rwa [← query_persist_of_not_covers r p v hcovers]
      exact Nat.lt_of_lt_of_le (h n hold) (Nat.le_add_right _ _)
  | delete p =>
    -- what is there now was there before, and the count never goes down
    intro n hn
    refine Nat.lt_of_lt_of_le (h n ?_) (Journal.revisionWrites_mono (j.writes_noted _) _)
    change ((r.delete p).query _).isSome at hn
    rw [r.query_delete] at hn
    split at hn
    · cases hn
    · exact hn
  | query p => exact h
  | children p => exact h
  | warn w => exact h

namespace Stage

/-- **What answering a request leads to** on a shared node. -/
structure Stepped (s : Stage) (r : ClusterRequest) (answered : r.Reply × Stage) : Prop where
  answers : tidyTerms.Answers r s.repository answered.1 answered.2.repository
  faults : answered.2.faults = []
  generation : answered.2.generation.HasNames
  warnings : ∀ w ∈ answered.2.journal.warnings,
    w ∈ s.journal.warnings ∨ ∀ path, w ≠ .manyVersions path
  below : ∀ x : VersionedItem, x.Named →
    Item.Below s.repository x.path (s.journal.revisionWrites x.path) →
    Item.Below answered.2.repository x.path (answered.2.journal.revisionWrites x.path)

variable {s : Stage}

/-- A request that leaves the repository and the journal alone. -/
theorem Stepped.of_quiet {r : ClusterRequest} {answered : r.Reply × Stage}
    (hanswers : tidyTerms.Answers r s.repository answered.1 answered.2.repository)
    (hfaults : answered.2.faults = []) (hgeneration : answered.2.generation.HasNames)
    (hrepository : answered.2.repository = s.repository)
    (hwrites : answered.2.journal.writes = s.journal.writes)
    (hwarnings : answered.2.journal.warnings = s.journal.warnings) : s.Stepped r answered where
  answers := hanswers
  faults := hfaults
  generation := hgeneration
  warnings w hw := .inl (hwarnings ▸ hw)
  below x _ h := by
    unfold Journal.revisionWrites at h ⊢
    rwa [hrepository, hwrites]

/-- **A request for which what is owed holds** is answered on the terms of a shared node. -/
theorem stepped_answerShared (hfaults : s.faults = []) (hgeneration : s.generation.HasNames)
    (failure : Option Error) {r : ClusterRequest} (howed : tidyTerms.Owed r s.repository) :
    s.Stepped r (s.answerShared failure r) := by
  have hled := s.leadsTo_answerShared failure r
  generalize s.answerShared failure r = answered at hled ⊢
  cases hled with
  | answered call =>
    obtain ⟨-, hmindful⟩ : s.repository.Brief ∧ call.Mindful s.repository := howed
    have hanswers : briefTerms.Answers call s.repository (Repository.answer call s.repository).1
        (Repository.answer call s.repository).2 := terms_answers call s.repository
    rw [s.answerStore_of_faults_eq_nil hfaults]
    refine ⟨hanswers, hfaults, hgeneration, fun w hw => ?_, fun x hx h => h.answer hx hmindful⟩
    -- a new warning is one that the terms allow
    cases call with
    | warn w' =>
      rcases List.mem_append.1 hw with hw | hw
      · exact .inl hw
      · obtain rfl := List.mem_singleton.1 hw
        exact .inr hmindful
    | _ => exact .inl hw
  | refused call he => exact he.elim
  | current => exact .of_quiet ⟨hgeneration, rfl⟩ hfaults hgeneration rfl rfl rfl
  | built db isNew diff before =>
    -- a generation that is built has names because the one before had them
    obtain ⟨-, hbefore⟩ : s.repository.Tidy ∧ before.HasNames := howed
    exact .of_quiet ⟨fun _ hg => hbefore.rebuild hg, rfl⟩ hfaults hgeneration rfl rfl rfl
  | notBuilt db isNew diff before e =>
    exact .of_quiet ⟨fun _ h => (by cases h), rfl⟩ hfaults hgeneration rfl rfl rfl
  | opened unit properties => exact .of_quiet howed hfaults hgeneration rfl rfl rfl
  | notOpened unit properties e => exact .of_quiet howed hfaults hgeneration rfl rfl rfl
  | @installed d g hg =>
    obtain ⟨-, hd⟩ : s.repository.Tidy ∧ d.schemas.HaveNames := howed
    exact .of_quiet rfl hfaults (hgeneration.succeededBy hd hg) rfl rfl rfl
  | notInstalled d => exact .of_quiet rfl hfaults hgeneration rfl rfl rfl
  | found timeoutMs hgoal =>
    -- what is waited for is the current generation
    refine .of_quiet ⟨fun g hg => ?_, howed⟩ hfaults hgeneration rfl rfl rfl
    exact Option.some.inj hg ▸ hgeneration
  | notFound goal timeoutMs =>
    exact .of_quiet ⟨fun _ h => (by cases h), howed⟩ hfaults hgeneration rfl rfl rfl
  | retired policy pools handedOver handovers => exact .of_quiet rfl hfaults hgeneration rfl rfl rfl
  | announced db event reply hwrites hwarnings =>
    exact .of_quiet rfl hfaults hgeneration rfl hwrites hwarnings

end Stage

/-! ### Runs -/

/-- **What happens on a shared node.** -/
inductive HistoryMove where
  /-- An operation is started. -/
  | start (op : NodeOperation)
  /-- The next request of an operation is answered; what can fail does so if there is a failure. -/
  | next (operation : Nat) (failure : Option Error)
  /-- A generation is loaded. -/
  | install (g : Generation)

/-- What a move names are names. -/
def HistoryMove.HasNames : HistoryMove → Prop
  | start op => op.HasNames
  | next .. => True
  | install g => g.HasNames

/-- **A node and the operations on it.** -/
structure HistoryRun where
  stage : Stage
  /-- What is left of the operations, in the order in which they were started. -/
  operations : List (Cluster Unit) := []
  /-- The operation that goes on alone, if one does. -/
  turn : Option Nat := none

namespace HistoryRun

/-- The run at the start. -/
def ofStage (stage : Stage) : HistoryRun := { stage }

/-- The run with the next request of an operation answered. The operation keeps the turn until it gives
way. -/
def answered (s : HistoryRun) (i : Nat) (failure : Option Error) (r : ClusterRequest)
    (rest : r.Reply → Cluster Unit) : HistoryRun :=
  let (reply, stage) := s.stage.answerShared failure r
  { stage
    operations := s.operations.set i (rest reply)
    turn := if (rest reply).givesWay then none else some i }

/-- The run after a move. While an operation goes on alone, the others are not answered. -/
def step (service : Service) (s : HistoryRun) : HistoryMove → HistoryRun
  | .start op => { s with operations := s.operations ++ [op.run service] }
  | .next i failure =>
    match s.operations[i]? with
    | some (.ask r rest) => if s.turn = none ∨ s.turn = some i then s.answered i failure r rest else s
    | _ => s
  | .install g => { s with stage := s.stage.install g }

/-- The run after all moves. -/
def after (service : Service) (s : HistoryRun) (moves : List HistoryMove) : HistoryRun :=
  moves.foldl (step service) s

variable {service : Service} {s : HistoryRun} {move : HistoryMove}

/-- The next request of an operation is answered, or nothing happens. -/
theorem step_next (service : Service) (s : HistoryRun) (i : Nat) (failure : Option Error) :
    s.step service (.next i failure) = s
      ∨ ∃ r rest, s.operations[i]? = some (.ask r rest) ∧ (s.turn = none ∨ s.turn = some i)
        ∧ s.step service (.next i failure) = s.answered i failure r rest := by
  unfold step
  dsimp only
  split
  · rename_i r rest hp
    split
    · rename_i hturn
      exact .inr ⟨r, rest, hp, hturn, rfl⟩
    · exact .inl rfl
  · exact .inl rfl

/-- What was written stays recorded in every run. -/
theorem writes_step (service : Service) (s : HistoryRun) (move : HistoryMove) :
    s.stage.journal.writes <+: (s.step service move).stage.journal.writes := by
  cases move with
  | start op => exact List.prefix_rfl
  | next i failure =>
    rcases s.step_next service i failure with hstep | ⟨r, rest, -, -, hstep⟩
    · rw [hstep]
    · rw [hstep]
      exact Stage.writes_answerShared failure r s.stage
  | install g =>
    obtain ⟨warnings, hinstall, -⟩ := s.stage.install_eq g
    show _ <+: (s.stage.install g).journal.writes
    rw [hinstall]

theorem writes_after (service : Service) (s : HistoryRun) (moves : List HistoryMove) :
    s.stage.journal.writes <+: (s.after service moves).stage.journal.writes := by
  induction moves generalizing s with
  | nil => exact List.prefix_rfl
  | cons move moves ih => exact (s.writes_step service move).trans (ih (s.step service move))

/-! ### The invariant -/

/-- **An operation is ready** to go on from wherever the repository is tidy. -/
def Ready (p : Cluster Unit) : Prop := ∀ r : Repository, r.Tidy → p.Keeps tidyTerms Settles r

theorem ready_run (hservice : service.Notifies) {op : NodeOperation} (h : op.HasNames) :
    Ready (op.run service) := fun r hr => (op.tidies_run hservice h r hr).mono fun _ _ h => h.1

/-- **The invariant of a run**: the operation that has the turn keeps to the terms from here on, the
others are ready, and no item has been given more numbers than revisions were written to it. -/
structure Steady (s : HistoryRun) : Prop where
  faults : s.stage.faults = []
  generation : s.stage.generation.HasNames
  warnings : ∀ path, .manyVersions path ∉ s.stage.journal.warnings
  below : ∀ x : VersionedItem, x.Named →
    Item.Below s.stage.repository x.path (s.stage.journal.revisionWrites x.path)
  ready : ∀ i p, s.operations[i]? = some p → s.turn ≠ some i → Ready p
  acting : ∀ i, s.turn = some i → ∃ p, s.operations[i]? = some p ∧ p.givesWay = false
    ∧ p.Keeps tidyTerms Settles s.stage.repository
  tidy : s.turn = none → s.stage.repository.Tidy

/-- No item ever has more than two revisions. -/
theorem Steady.brief (hs : s.Steady) : s.stage.repository.Brief := by
  cases hturn : s.turn with
  | none => exact (hs.tidy hturn).brief
  | some i =>
    obtain ⟨p, -, hway, hkeeps⟩ := hs.acting i hturn
    cases p with
    | ask r k => exact brief_of_owed hkeeps.1
    | done a => cases hway
    | stop f => cases hway

/-- An operation whose request may be answered keeps to the terms from here on. -/
theorem Steady.keeps (hs : s.Steady) {i : Nat} {p : Cluster Unit} (hp : s.operations[i]? = some p)
    (hturn : s.turn = none ∨ s.turn = some i) : p.Keeps tidyTerms Settles s.stage.repository := by
  rcases hturn with hturn | hturn
  · exact hs.ready i p hp (by simp [hturn]) _ (hs.tidy hturn)
  · obtain ⟨q, hq, -, hkeeps⟩ := hs.acting i hturn
    rw [hp] at hq
    exact Option.some.inj hq ▸ hkeeps

/-- Numbers have not run out as long as few enough revisions were written. -/
theorem not_full {r : Repository} {j : Journal}
    (hbelow : ∀ x : VersionedItem, x.Named → Item.Below r x.path (j.revisionWrites x.path))
    (hbound : ∀ x : VersionedItem, x.Named → j.revisionWrites x.path ≤ maxRevision) : ¬ r.Full :=
  fun ⟨x, hx, hpresent⟩ =>
    Nat.lt_irrefl _ (Nat.lt_of_lt_of_le (hbelow x hx _ hpresent) (hbound x hx))

/-- **Answering a request** of an operation that may go on. -/
theorem Steady.answered (hs : s.Steady) {i : Nat} {r : ClusterRequest} {rest : r.Reply → Cluster Unit}
    (hp : s.operations[i]? = some (.ask r rest)) (hturn : s.turn = none ∨ s.turn = some i)
    (failure : Option Error)
    (hbound : ∀ x : VersionedItem, x.Named →
      (s.answered i failure r rest).stage.journal.revisionWrites x.path ≤ maxRevision) :
    (s.answered i failure r rest).Steady := by
  obtain ⟨howed, hkeeps⟩ := hs.keeps hp hturn
  have hstepped := s.stage.stepped_answerShared hs.faults hs.generation failure howed
  have hrest := hkeeps _ _ hstepped.answers
  have hbelow := fun x hx => hstepped.below x hx (hs.below x hx)
  unfold HistoryRun.answered at hbound ⊢
  generalize s.stage.answerShared failure r = answer at hstepped hrest hbelow hbound ⊢
  obtain ⟨reply, stage⟩ := answer
  have hself : (s.operations.set i (rest reply))[i]? = some (rest reply) :=
    List.getElem?_set_self (List.getElem?_eq_some_iff.1 hp).1
  -- the other operations are as they were, and none of them had the turn
  have hothers : ∀ j q, j ≠ i → (s.operations.set i (rest reply))[j]? = some q → Ready q := by
    intro j q hne hq
    rw [List.getElem?_set_ne hne.symm] at hq
    refine hs.ready j q hq fun hj => ?_
    rcases hturn with hnone | hsome
    · rw [hnone] at hj
      cases hj
    · rw [hsome] at hj
      exact hne (Option.some.inj hj).symm
  have hwarnings : ∀ path, .manyVersions path ∉ stage.journal.warnings := fun path hw =>
    (hstepped.warnings _ hw).elim (hs.warnings path) fun hne => hne path rfl
  dsimp only
  cases hway : (rest reply).givesWay with
  | true =>
    -- the turn is given up in a tidy repository, and the operation is ready again
    obtain ⟨htidy, hready⟩ := keeps_of_givesWay hway (not_full hbelow hbound) hrest
    rw [if_pos rfl]
    refine ⟨hstepped.faults, hstepped.generation, hwarnings, hbelow, fun j q hq _ => ?_,
      fun j hj => (by cases hj), fun _ => htidy⟩
    by_cases hj : j = i
    · subst hj
      rw [hself] at hq
      exact Option.some.inj hq ▸ hready
    · exact hothers j q hj hq
  | false =>
    -- the operation has the turn, and what is left of it keeps to the terms
    rw [if_neg Bool.false_ne_true]
    refine ⟨hstepped.faults, hstepped.generation, hwarnings, hbelow, fun j q hq hj => ?_,
      fun j hj => ?_, fun hnone => (by cases hnone)⟩
    · exact hothers j q (fun heq => hj (congrArg some heq.symm)) hq
    · obtain rfl : i = j := Option.some.inj hj
      exact ⟨_, hself, hway, hrest⟩

/-- **Starting an operation** keeps the invariant: it is ready. -/
theorem Steady.start (hs : s.Steady) {p : Cluster Unit} (hp : Ready p) :
    Steady { s with operations := s.operations ++ [p] } := by
  refine ⟨hs.faults, hs.generation, hs.warnings, hs.below, fun i q hq hi => ?_, fun i hi => ?_, hs.tidy⟩
  · change (s.operations ++ [p])[i]? = some q at hq
    rw [List.getElem?_append] at hq
    split at hq
    · exact hs.ready i q hq hi
    · exact List.mem_singleton.1 (List.mem_of_getElem? hq) ▸ hp
  · obtain ⟨q, hq, hacting⟩ := hs.acting i hi
    exact ⟨q, (List.getElem?_append_left (List.getElem?_eq_some_iff.1 hq).1).trans hq, hacting⟩

/-- **One move** keeps the invariant. -/
theorem Steady.step (hservice : service.Notifies) (hs : s.Steady) (hmove : move.HasNames)
    (hbound : ∀ x : VersionedItem, x.Named →
      (s.step service move).stage.journal.revisionWrites x.path ≤ maxRevision) :
    (s.step service move).Steady := by
  cases move with
  | start op => exact hs.start (ready_run hservice hmove)
  | next i failure =>
    rcases s.step_next service i failure with hstep | ⟨r, rest, hp, hturn, hstep⟩
    · rw [hstep]
      exact hs
    · rw [hstep] at hbound ⊢
      exact hs.answered hp hturn failure hbound
  | install g =>
    obtain ⟨warnings, hinstall, hwarnings⟩ := s.stage.install_eq g
    show Steady { s with stage := s.stage.install g }
    -- whoever installs a generation touches no item, and its warnings are not about versions
    rw [hinstall]
    refine ⟨hs.faults, hmove, fun path hw => ?_, hs.below, hs.ready, hs.acting, hs.tidy⟩
    exact (hwarnings _ hw).elim (hs.warnings path) fun heq => by cases heq

/-- **A whole run** keeps the invariant. -/
theorem Steady.after (hservice : service.Notifies) (hs : s.Steady) {moves : List HistoryMove}
    (hmoves : ∀ move ∈ moves, move.HasNames)
    (hbound : ∀ x : VersionedItem, x.Named →
      (s.after service moves).stage.journal.revisionWrites x.path ≤ maxRevision) :
    (s.after service moves).Steady := by
  induction moves generalizing s with
  | nil => exact hs
  | cons move moves ih =>
    rw [List.forall_mem_cons] at hmoves
    -- what is written later only adds to the count, so the bound holds here as well
    refine ih (hs.step hservice hmoves.1 fun x hx => ?_) hmoves.2 hbound
    exact (Journal.revisionWrites_mono ((s.step service move).writes_after service moves) _).trans
      (hbound x hx)

/-- The invariant holds of a run that starts with an empty repository. -/
theorem Steady.ofStage {stage : Stage} (hempty : stage.repository.nodes = ∅)
    (hfaults : stage.faults = []) (hgeneration : stage.generation.HasNames)
    (hwarnings : ∀ path, .manyVersions path ∉ stage.journal.warnings) : (ofStage stage).Steady where
  faults := hfaults
  generation := hgeneration
  warnings := hwarnings
  below x _ := Item.below_of_none (fun q _ => query_of_nodes_eq_empty hempty q) _
  ready i p hp := by cases hp
  acting i hi := by cases hi
  tidy _ := tidy_of_nodes_eq_empty hempty

/-! ### The result -/

/-- **Histories stay short.** The node starts with an empty repository that refuses nothing, everything
has a name, and fewer than `2 ^ 32` revisions of each item are written. After every move no item has more
than two revisions. Whenever no operation has the turn — each of them is over, or waits for a pool or a
generation — every item that is there has exactly one revision, which is the one that its pointer names.
No item is ever reported to have many versions. -/
theorem stays_short (hservice : service.Notifies) {stage : Stage}
    (hempty : stage.repository.nodes = ∅) (hfaults : stage.faults = [])
    (hgeneration : stage.generation.HasNames)
    (hwarnings : ∀ path, .manyVersions path ∉ stage.journal.warnings) {moves : List HistoryMove}
    (hmoves : ∀ move ∈ moves, move.HasNames)
    (hbound : ∀ x : VersionedItem, x.Named →
      ((ofStage stage).after service moves).stage.journal.revisionWrites x.path < 2 ^ 32) :
    let run := (ofStage stage).after service moves
    let r := run.stage.repository
    (∀ x : VersionedItem, x.Named → ∃ found : List Nat,
      (Item.revisions x.path).run Repository.answer r = (.ok found, r) ∧ found.length ≤ 2)
    ∧ (run.turn = none → ∀ x : VersionedItem, x.Named → ∃ active : Option Nat,
      (Item.revisions x.path).run Repository.answer r = (.ok active.toList, r)
      ∧ (Item.active x.path).run Repository.answer r = (.ok active, r)
      ∧ (active.isSome ↔ (r.query x.path).isSome))
    ∧ ∀ path, .manyVersions path ∉ run.stage.journal.warnings := by
  intro run r
  -- the bound on the revisions written is what keeps numbers from running out
  have hsteady : run.Steady := (Steady.ofStage hempty hfaults hgeneration hwarnings).after hservice
    hmoves fun x hx => Nat.le_of_lt_succ (hbound x hx)
  refine ⟨fun x hx => ?_, fun hturn x hx => ?_, hsteady.warnings⟩
  · obtain ⟨h, hr, hshort⟩ := hsteady.brief
    obtain ⟨found, hrun, hlength, -⟩ := (hr x hx).run_revisions
    exact ⟨found, hrun, hlength.trans (hshort x hx)⟩
  · -- without a turn the repository is tidy
    obtain ⟨h, hr, hsettled⟩ := hsteady.tidy hturn
    obtain ⟨active, hactive⟩ := hsettled x hx
    exact ⟨active, (hactive ▸ hr x hx).run_of_settled⟩

/-- The properties are written twice while a unit waits for its pool, which then cannot be opened. In
between, right after the second revision is written, there are two. -/
theorem stays_short_over_failed_opening :
    let service : Service := ⟨0, ⟨1, 1⟩, fun db event => Cluster.access (Coordinator.publish db event)⟩
    let stage : Stage :=
      { repository := .memory .empty
        generation := { databases := Generation.databasesOf [.empty "a"] } }
    let alter (value : String) : NodeOperation := .alterProperties (.ofList [("key", value)])
    let before := [.start (.onUnits "a" (.register (.ofList [("x", ⟨"url", "user", "", ∅⟩)]))), .next 0 none,
        .start (alter "old"), .start (alter "new")]
      ++ List.replicate 4 (.next 1 none) ++ List.replicate 2 (.next 2 none)
    let after := List.replicate 6 (.next 2 none)
      ++ List.replicate 3 (.next 0 (some (.internal "refused")))
    let during := (ofStage stage).after service before
    let run := during.after service after
    let listed (s : HistoryRun) :=
      ((Item.revisions Path.properties).run Repository.answer s.stage.repository).1
    during.turn = some 2 ∧ listed during = .ok [0, 1] ∧ run.turn = none ∧ listed run = .ok [1]
      ∧ (Item.active Path.properties).run Repository.answer run.stage.repository
        = (.ok (some 1), run.stage.repository)
      ∧ ∀ path, .manyVersions path ∉ run.stage.journal.warnings := by
  intro service stage alter before after during run listed
  have hrun : let during := (ofStage stage).after service before
      let run := (ofStage stage).after service (before ++ after)
      during.turn = some 2 ∧ listed during = .ok [0, 1] ∧ run.turn = none ∧ listed run = .ok [1]
        ∧ run.stage.journal.writes.length < 2 ^ 32 := by
    decide +kernel
  have hduring : (ofStage stage).after service before = during := rfl
  have hafter : (ofStage stage).after service (before ++ after) = run := List.foldl_append
  have hmoves : ∀ move ∈ before ++ after, move.HasNames := by
    have hnext : ∀ n i failure, ∀ move ∈ List.replicate n (HistoryMove.next i failure),
        move.HasNames := fun _ _ _ move h => List.eq_of_mem_replicate h ▸ trivial
    have hregister : Path.IsName "a" ∧ ∀ name ∈ ["x"], Path.IsName name := by decide
    simp only [before, after, List.forall_mem_append, List.forall_mem_cons]
    exact ⟨⟨⟨⟨hregister, trivial, trivial, trivial, fun _ h => by cases h⟩, hnext 4 1 none⟩,
      hnext 2 2 none⟩, hnext 6 2 none, hnext 3 0 _⟩
  have hservice : service.Notifies := fun _ _ => .inl rfl
  have hgeneration : stage.generation.HasNames := by
    intro db d hd
    obtain ⟨d', hmem, heq⟩ := List.mem_map.1 (SortedMap.mem_of_get?_ofList hd)
    obtain rfl := List.mem_singleton.1 hmem
    obtain ⟨-, rfl⟩ := Prod.mk.inj heq
    exact fun _ _ h => by cases h
  have hempty : stage.repository.nodes = ∅ := rfl
  have hfaults : stage.faults = [] := rfl
  have hwarnings : ∀ path, .manyVersions path ∉ stage.journal.warnings := fun _ => List.not_mem_nil
  dsimp only at hrun
  rw [hduring, hafter] at hrun
  obtain ⟨hacting, hlistedDuring, hturn, hlisted, hwrites⟩ := hrun
  -- the runs are never evaluated again from here on
  clear_value run during stage
  subst hafter
  obtain ⟨-, hsettled, hnever⟩ := stays_short hservice hempty hfaults hgeneration hwarnings hmoves
    fun x _ => Nat.lt_of_le_of_lt List.countP_le_length hwrites
  obtain ⟨active, hrevisions, hactive, -⟩ := hsettled hturn .properties VersionedItem.named_properties
  have hpath : VersionedItem.properties.path = Path.properties := rfl
  rw [hpath] at hrevisions hactive
  have hone : active.toList = [1] := by
    have hlisted := hlisted
    dsimp only [listed] at hlisted
    rw [hrevisions] at hlisted
    exact Except.ok.inj hlisted
  obtain rfl : active = some 1 := by
    cases active with
    | none => cases hone
    | some n => exact congrArg some (List.cons.inj hone).1
  exact ⟨hacting, hlistedDuring, hturn, hlisted, hactive, hnever⟩

end HistoryRun

end ClusterCatalog
