import ClusterCatalog.Proofs.Cluster.Lockstep
import ClusterCatalog.Proofs.Cluster.Ownership

/-!
# Operations on different databases

Operations on storage units run on one node, at most one at a time for each database; those on
different databases overtake each other between any two requests. Here the repository refuses nothing,
while pools may fail to open and generations may fail to be built.

What a database sees of a run is what it would see if the operations on the other databases were not
there. The run of its own moves alone is a second run beside the first one. As long as the two look the
same to the database, its operation goes in lockstep with itself and keeps it so
(`NodeRun.Matching.step`), and a move of another database changes nothing that the database sees
(`NodeRun.Matching.step_other`). A whole run is argued for all databases at once, because that the
operations of the others keep to themselves is part of their being in lockstep
(`NodeRun.matching_after`).

`NodeRun.undisturbed` is the result.
-/

namespace ClusterCatalog

open Plan

/-! ### Runs -/

/-- The database that a move is about. -/
def PoolMove.db : PoolMove → String
  | start db _ => db
  | next db _ => db

/-- **A node and the operations on it**, with what has become of them. -/
structure NodeRun where
  stage : Stage
  /-- What is left of the operations that are going on, by database. -/
  changes : SortedMap (Cluster Unit) := ∅
  /-- How operations have ended, each with its database. -/
  results : List (String × Except Failure Unit) := []
  /-- The databases that were put into the current generation, as often as that was done. -/
  installed : List String := []

namespace NodeRun

/-- The run at the start. -/
def ofStage (stage : Stage) : NodeRun := { stage }

/-- The database that a request puts into the current generation. -/
def installing : (r : ClusterRequest) → r.Reply → List String
  | .installDatabase d, .ok _ => [d.name]
  | _, _ => []

/-- The run with an operation put back after a request, or taken off if it is over. -/
def put (s : NodeRun) (db : String) : Cluster Unit → NodeRun
  | .done a => { s with changes := s.changes.erase db, results := s.results ++ [(db, .ok a)] }
  | .stop f => { s with changes := s.changes.erase db, results := s.results ++ [(db, .error f)] }
  | rest => { s with changes := s.changes.insert db rest }

/-- The run with a request answered. -/
def answered (s : NodeRun) (failure : Option Error) (r : ClusterRequest) : NodeRun :=
  { s with
    stage := (s.stage.answerReliably failure r).2
    installed := s.installed ++ installing r (s.stage.answerReliably failure r).1 }

/-- The run after a move. An operation on a database that has one already is not started. -/
def step (service : Service) (s : NodeRun) : PoolMove → NodeRun
  | .start db op => if s.changes.contains db then s else s.put db (op.run service db)
  | .next db failure =>
    match s.changes.get? db with
    | some (.ask r rest) =>
      (s.answered failure r).put db (rest (s.stage.answerReliably failure r).1)
    | _ => s

/-- The run after all moves. -/
def after (service : Service) (s : NodeRun) (moves : List PoolMove) : NodeRun :=
  moves.foldl (step service) s

/-- How the operations on a database have ended. -/
def resultsOf (s : NodeRun) (db : String) : List (Except Failure Unit) :=
  (s.results.filter fun r => r.1 == db).map (·.2)

end NodeRun

/-! ### What a database sees of a node -/

/-- What decides which requests fail. -/
def Stage.conditions (s : Stage) : List Fault × List (String × String) × Bool :=
  (s.faults, s.refusals, s.factoryFails)

/-- **Nodes match** as far as a database is concerned, where `P` relates the pools that stand for each
other. -/
structure Stage.Matching (P : PoolId → PoolId → Prop) (db : String) (s s' : Stage) : Prop where
  generation : s.generation.Matching P db s'.generation
  metadata : Repository.SameAt (Path.database db) s'.repository s.repository
  statistics : Repository.SameAt (Path.child Path.statisticsRoot db) s'.repository s.repository
  conditions : s.conditions = s'.conditions
  reliable : s.faults = []

/-- Pools of two nodes are for the same place. -/
def SamePlace (pools pools' : List Pool) (i j : PoolId) : Prop :=
  ∃ p p', pools[i]? = some p ∧ pools'[j]? = some p' ∧ p.url = p'.url

/-- Pools that are opened later move no pool from its place. -/
theorem SamePlace.mono {pools pools' later later' : List Pool} {i j : PoolId}
    (h : SamePlace pools pools' i j) (hlater : pools <+: later) (hlater' : pools' <+: later') :
    SamePlace later later' i j := by
  have hkept : ∀ {l l' : List Pool} {i : PoolId} {p : Pool}, l <+: l' → l[i]? = some p →
      l'[i]? = some p := by
    rintro l _ i p ⟨rest, rfl⟩ hi
    rw [List.getElem?_append_left (List.getElem?_eq_some_iff.1 hi).1]
    exact hi
  obtain ⟨p, p', hi, hj, hurl⟩ := h
  exact ⟨p, p', hkept hlater hi, hkept hlater' hj, hurl⟩

namespace Stage

variable {P P' : PoolId → PoolId → Prop} {db db' : String} {s s' : Stage}

/-! ### One request -/

/-- **What any request leaves of a node**: pools are only added, the number of the generation counts
the databases that are put in, and no fault comes up. -/
structure Advances (s : Stage) (r : ClusterRequest) (answered : r.Reply × Stage) : Prop where
  pools : s.pools <+: answered.2.pools
  number : answered.2.generation.number
    = s.generation.number + (NodeRun.installing r answered.1).length
  faults : s.faults = [] → answered.2.faults = []

/-- **What one request adds**: pools at the end of the list, a number for an installation, no fault. -/
theorem advances_answerReliably (failure : Option Error) (r : ClusterRequest) (s : Stage) :
    s.Advances r (s.answerReliably failure r) := by
  have h := s.leadsTo_answerReliably failure r
  generalize s.answerReliably failure r = answered at h ⊢
  -- only an opening adds a pool, and only an installation a number
  cases h with
  | answered call =>
    obtain ⟨hgeneration, hpools⟩ := s.answerStore_frame call
    refine ⟨?_, congrArg Generation.number hgeneration, fun hfaults => ?_⟩
    · rw [hpools]
    · rw [s.answerStore_of_faults_eq_nil hfaults call]
      exact hfaults
  | opened unit properties => exact ⟨List.prefix_append _ _, rfl, id⟩
  | installed hg =>
    exact ⟨List.prefix_rfl, congrArg Generation.number (Generation.eq_of_succeededBy hg), id⟩
  | _ => exact ⟨List.prefix_rfl, rfl, id⟩

/-- The same call of a store is answered alike on matching nodes, as it is about the database. -/
theorem Matching.answer_store (h : s.Matching P db s') {call : StoreRequest}
    (hcall : call.OfDatabase db) : (answerStore call s).1 = (answerStore call s').1
      ∧ (answerStore call s).2.Matching P db (answerStore call s').2 := by
  have hreliable' : s'.faults = [] := (congrArg Prod.fst h.conditions).symm.trans h.reliable
  have hreply : (Repository.answer call s.repository).1 = (Repository.answer call s'.repository).1 :=
    hcall.elim (Access.reply_of_sameAt h.metadata) (Access.reply_of_sameAt h.statistics)
  rw [s.answerStore_of_faults_eq_nil h.reliable call, s'.answerStore_of_faults_eq_nil hreliable' call]
  exact ⟨hreply, h.generation, h.metadata.answer call, h.statistics.answer call, h.conditions,
    h.reliable⟩

/-- A pool is opened on both nodes or on neither; the two pools are for the same place. -/
theorem Matching.answer_openPool (h : s.Matching P db s') {unit url : String}
    (hpools : ∀ i j, SamePlace (s.tryOpenPool unit url).2.pools (s'.tryOpenPool unit url).2.pools i j
      → P i j) : Alike P (s.tryOpenPool unit url).1 (s'.tryOpenPool unit url).1
      ∧ (s.tryOpenPool unit url).2.Matching P db (s'.tryOpenPool unit url).2 := by
  have hrefusals : s.refusals = s'.refusals := congrArg (·.2.1) h.conditions
  unfold tryOpenPool at hpools ⊢
  rw [hrefusals] at hpools ⊢
  split at hpools
  · exact ⟨.error _, h⟩
  · -- both pools are new, and for the same place
    exact ⟨.ok (hpools _ _ ⟨_, _, List.getElem?_concat_length, List.getElem?_concat_length, rfl⟩),
      h.generation, h.metadata, h.statistics, h.conditions, h.reliable⟩

/-- Matching databases are put in on both nodes, unless the number of the generation overflows. -/
theorem Matching.answer_installDatabase (h : s.Matching P db s') {d d' : Database}
    (hd : d.Matching P db d') : (s.installDatabase d).1 = .error .overflow
      ∨ Alike (fun _ _ => True) (s.installDatabase d).1 (s'.installDatabase d').1
        ∧ (s.installDatabase d).2.Matching P db (s'.installDatabase d').2 := by
  unfold installDatabase
  rcases h.generation.succeededBy hd with hoverflow | halike
  · rw [hoverflow]
    exact .inl rfl
  · generalize s.generation.succeededBy d = next, s'.generation.succeededBy d' = next' at halike ⊢
    cases halike with
    | error f => exact .inr ⟨.error f, h⟩
    | ok hg => exact .inr ⟨.ok trivial, hg, h.metadata, h.statistics, h.conditions, h.reliable⟩

/-- **A request of the operation on the database** gets matching replies on matching nodes, and leaves
them matching, unless a number overflows. -/
theorem Matching.answer (h : s.Matching P db s') {r r' : ClusterRequest}
    {R : r.Reply → r'.Reply → Prop} (hr : ClusterRequest.Matches P db r r' R) (failure : Option Error)
    (hpools : ∀ i j, SamePlace (s.answerReliably failure r).2.pools
      (s'.answerReliably failure r').2.pools i j → P i j) :
    ClusterRequest.Overflows r (s.answerReliably failure r).1
      ∨ R (s.answerReliably failure r).1 (s'.answerReliably failure r').1
        ∧ (s.answerReliably failure r).2.Matching P db (s'.answerReliably failure r').2 := by
  cases hr with
  | @store call hcall => exact .inr (h.answer_store hcall)
  | current => cases failure <;> exact .inr ⟨h.generation, h⟩
  | @build diff diff' before before' hdiff hbefore =>
    cases failure with
    | some e => exact .inr ⟨.error _, h⟩
    | none =>
      show s.build db false diff before = .error .overflow
        ∨ Alike (Generation.Matching P db) (s.build db false diff before)
          (s'.build db false diff' before') ∧ s.Matching P db s'
      -- a factory that fails does so on both nodes
      have hfactory : s.factoryFails = s'.factoryFails := congrArg (·.2.2) h.conditions
      unfold build
      rw [hfactory]
      split
      · exact .inr ⟨.error _, h⟩
      · exact (hbefore.rebuild hdiff).imp id fun halike => ⟨halike, h⟩
  | openPool unit properties =>
    cases failure with
    | some e => exact .inr ⟨.error e, h⟩
    | none => exact .inr (h.answer_openPool hpools)
  | @installDatabase d d' hd =>
    rw [answerReliably_installDatabase, answerReliably_installDatabase]
    exact h.answer_installDatabase hd
  | retire policy pools pools' =>
    -- pools are only handed over to be drained, and no reply depends on that
    obtain ⟨n, handovers, hretired⟩ := s.retire_eq policy pools
    obtain ⟨n', handovers', hretired'⟩ := s'.retire_eq policy pools'
    rw [answerReliably_retire, answerReliably_retire, hretired, hretired']
    exact .inr ⟨trivial, h.generation, h.metadata, h.statistics, h.conditions, h.reliable⟩

/-- A call that is about another database leaves alone what belongs to this one. -/
theorem sameAt_of_ofDatabase {call : StoreRequest} (hcall : call.OfDatabase db')
    (hdb : Path.IsName db) (hdb' : Path.IsName db') (hne : db' ≠ db) (r : Repository) :
    Repository.SameAt (Path.database db) r (Repository.answer call r).2
      ∧ Repository.SameAt (Path.child Path.statisticsRoot db) r (Repository.answer call r).2 := by
  have hstatistics : ∀ name, Path.statisticsRoot.Covers (Path.child Path.statisticsRoot name) :=
    fun name => (Path.isAbove_child _ name).covers
  -- a call of the other database is below its node or below its statistics, and both are apart from
  -- those of this one
  rcases hcall with hcall | hcall
  · have hapart : (Path.database db').Apart (Path.database db) := Path.apart_child hdb'.2 hdb.2 hne
    have hapart' : (Path.database db').Apart (Path.child Path.statisticsRoot db) :=
      (Path.apart_statisticsRoot_database db').symm.mono (.refl _) (hstatistics db)
    exact ⟨Repository.sameAt_answer_of_apart hapart hcall,
      Repository.sameAt_answer_of_apart hapart' hcall⟩
  · have hapart : (Path.child Path.statisticsRoot db').Apart (Path.database db) :=
      (Path.apart_statisticsRoot_database db).mono (hstatistics db') (.refl _)
    have hapart' : (Path.child Path.statisticsRoot db').Apart (Path.child Path.statisticsRoot db) :=
      Path.apart_child hdb'.2 hdb.2 hne
    exact ⟨Repository.sameAt_answer_of_apart hapart hcall,
      Repository.sameAt_answer_of_apart hapart' hcall⟩

/-- **A request of an operation on another database** changes nothing that the database sees. -/
theorem Matching.answer_other (h : s.Matching P db s') {r r' : ClusterRequest}
    {R : r.Reply → r'.Reply → Prop} (hr : ClusterRequest.Matches P' db' r r' R) (hdb : Path.IsName db)
    (hdb' : Path.IsName db') (hne : db' ≠ db) (failure : Option Error) :
    (s.answerReliably failure r).2.Matching P db s' := by
  have hled := s.leadsTo_answerReliably failure r
  generalize s.answerReliably failure r = answered at hled ⊢
  cases hled with
  | answered call =>
    -- the call keeps to the other database, so both parts of the repository are as they were
    cases hr with
    | store hcall =>
      obtain ⟨hmetadata, hstatistics⟩ := sameAt_of_ofDatabase hcall hdb hdb' hne s.repository
      rw [s.answerStore_of_faults_eq_nil h.reliable call]
      exact ⟨h.generation, h.metadata.trans hmetadata, h.statistics.trans hstatistics, h.conditions,
        h.reliable⟩
  | @installed d g hg =>
    -- another database is put in, and the number grows
    cases hr with
    | installDatabase hd =>
      obtain rfl := Generation.eq_of_succeededBy hg
      obtain ⟨hdatabase, hstatistics, hnumber⟩ := h.generation
      have hdatabase' : (s.generation.databases.insert d.name d).get? db
          = s.generation.databases.get? db := by
        rw [hd.name]
        exact SortedMap.get?_insert_of_ne _ _ hne.symm
      exact ⟨⟨hdatabase' ▸ hdatabase, hstatistics, Nat.le_succ_of_le hnumber⟩, h.metadata, h.statistics,
        h.conditions, h.reliable⟩
  | refused call he => exact he.elim
  | _ => exact ⟨h.generation, h.metadata, h.statistics, h.conditions, h.reliable⟩

end Stage

/-! ### One move -/

namespace NodeRun

variable {P P' : PoolId → PoolId → Prop} {db db' : String} {s s' s'' : NodeRun} (service : Service)

/-- **Runs match** as far as a database is concerned: its operation is in lockstep in both of them. -/
structure Matching (P : PoolId → PoolId → Prop) (db : String) (s s' : NodeRun) : Prop where
  stage : s.stage.Matching P db s'.stage
  change : Option.Rel (InStep (sameDatabase P db) Eq) (s.changes.get? db) (s'.changes.get? db)
  results : s.resultsOf db = s'.resultsOf db

@[simp] theorem stage_put (s : NodeRun) (db : String) (rest : Cluster Unit) :
    (s.put db rest).stage = s.stage := by
  cases rest <;> rfl

theorem resultsOf_append_self {r : Except Failure Unit}
    (h : s.results = s'.results ++ [(db, r)]) : s.resultsOf db = s'.resultsOf db ++ [r] := by
  unfold resultsOf
  rw [h]
  simp

theorem resultsOf_append_of_ne {r : Except Failure Unit} (hne : db' ≠ db)
    (h : s.results = s'.results ++ [(db', r)]) : s.resultsOf db = s'.resultsOf db := by
  unfold resultsOf
  rw [h]
  simp [hne]

/-- The operation of the database is put back in both runs. -/
theorem Matching.put {rest rest' : Cluster Unit} (hstage : s.stage.Matching P db s'.stage)
    (hresults : s.resultsOf db = s'.resultsOf db)
    (hrest : InStep (sameDatabase P db) Eq rest rest') :
    (s.put db rest).Matching P db (s'.put db rest') := by
  have herased : Option.Rel (InStep (sameDatabase P db) Eq) ((s.changes.erase db).get? db)
      ((s'.changes.erase db).get? db) := by
    rw [SortedMap.get?_erase, SortedMap.get?_erase, if_pos rfl, if_pos rfl]
    exact .none
  -- two operations in step end together, with the same result, or ask together
  cases hrest with
  | @done a b h =>
    refine ⟨hstage, herased, ?_⟩
    rw [resultsOf_append_self (s := s.put db (.done a)) rfl,
      resultsOf_append_self (s := s'.put db (.done b)) rfl, hresults, h]
  | stop f =>
    refine ⟨hstage, herased, ?_⟩
    rw [resultsOf_append_self (s := s.put db (.stop f)) rfl,
      resultsOf_append_self (s := s'.put db (.stop f)) rfl, hresults]
  | @ask r r' R k k' hrequest hnext hoverflow =>
    refine ⟨hstage, ?_, hresults⟩
    show Option.Rel _ ((s.changes.insert db (.ask r k)).get? db)
      ((s'.changes.insert db (.ask r' k')).get? db)
    rw [SortedMap.get?_insert_self, SortedMap.get?_insert_self]
    exact .some (.ask hrequest hnext hoverflow)

/-- The operation of another database is put back. -/
theorem Matching.put_other (h : s.Matching P db s') (hne : db' ≠ db) (rest : Cluster Unit) :
    (s.put db' rest).Matching P db s' := by
  have herased : (s.changes.erase db').get? db = s.changes.get? db := by
    rw [SortedMap.get?_erase, if_neg hne.symm]
  -- whatever is noted for the other database, under this one nothing is found that was not there
  cases rest with
  | done a =>
    refine ⟨h.stage, herased ▸ h.change, ?_⟩
    rw [resultsOf_append_of_ne (s := s.put db' (.done a)) hne rfl, h.results]
  | stop f =>
    refine ⟨h.stage, herased ▸ h.change, ?_⟩
    rw [resultsOf_append_of_ne (s := s.put db' (.stop f)) hne rfl, h.results]
  | ask r k =>
    refine ⟨h.stage, ?_, h.results⟩
    show Option.Rel _ ((s.changes.insert db' (.ask r k)).get? db) _
    rw [SortedMap.get?_insert_of_ne _ _ hne.symm]
    exact h.change

/-- An operation that is broken off has ended in a failure. -/
theorem error_mem_resultsOf_put_stop (s : NodeRun) (db : String) (f : Failure) :
    .error f ∈ (s.put db (.stop f)).resultsOf db := by
  rw [resultsOf_append_self (s := s.put db (.stop f)) rfl]
  exact List.mem_append_right _ (List.mem_singleton_self _)

/-- **A move of the database**, made in both runs. -/
theorem Matching.step (h : s.Matching P db s') {move : PoolMove} (hmove : move.db = db)
    (hpools : ∀ i j, SamePlace (s.step service move).stage.pools (s'.step service move).stage.pools i j
      → P i j)
    (hoverflow : .error .overflow ∉ (s.step service move).resultsOf db) :
    (s.step service move).Matching P db (s'.step service move) := by
  subst hmove
  have hchange := h.change
  cases move with
  | start db op =>
    unfold NodeRun.step at hpools hoverflow ⊢
    dsimp only [PoolMove.db] at *
    -- the two runs agree on whether an operation is going on, so both start this one or neither does
    have hbusy : s.changes.contains db = s'.changes.contains db := by
      unfold SortedMap.contains
      generalize s.changes.get? db = rest, s'.changes.get? db = rest' at hchange ⊢
      cases hchange <;> rfl
    rw [hbusy]
    split
    · exact h
    · exact .put h.stage h.results (op.inStep_run P service db)
  | next db failure =>
    unfold NodeRun.step at hpools hoverflow ⊢
    dsimp only [PoolMove.db] at *
    generalize s.changes.get? db = rest, s'.changes.get? db = rest' at hchange hpools hoverflow ⊢
    -- in lockstep, what is left of the operation has the same form in both runs
    cases hchange with
    | none => exact h
    | some hrest =>
      cases hrest with
      | done _ => exact h
      | stop _ => exact h
      | @ask r r' R k k' hrequest hnext hbreak =>
        simp only [stage_put] at hpools
        rcases h.stage.answer hrequest failure hpools with hover | ⟨hreply, hstage⟩
        · -- an overflow ends the operation, and would be among the results
          refine absurd ?_ hoverflow
          show .error .overflow
            ∈ ((s.answered failure r).put db (k (s.stage.answerReliably failure r).1)).resultsOf db
          rw [hbreak _ hover]
          exact error_mem_resultsOf_put_stop _ db .overflow
        · have hresults : (s.answered failure r).resultsOf db = (s'.answered failure r').resultsOf db :=
            h.results
          exact .put hstage hresults (hnext _ _ hreply)

/-- **A move of another database** changes nothing that the database sees. -/
theorem Matching.step_other (h : s.Matching P db s') {move : PoolMove}
    (hother : s.Matching P' move.db s'') (hdb : Path.IsName db) (hmove : Path.IsName move.db)
    (hne : move.db ≠ db) : (s.step service move).Matching P db s' := by
  cases move with
  | start db' op =>
    unfold NodeRun.step
    dsimp only
    split
    · exact h
    · exact h.put_other hne _
  | next db' failure =>
    have hchange := hother.change
    unfold NodeRun.step
    dsimp only [PoolMove.db] at *
    -- the other operation is in lockstep with its own run, so its requests are its database's
    generalize s.changes.get? db' = rest, s''.changes.get? db' = rest' at hchange ⊢
    cases hchange with
    | none => exact h
    | some hrest =>
      cases hrest with
      | done _ => exact h
      | stop _ => exact h
      | @ask r r' R k k' hrequest hnext hbreak =>
        have hanswered : (s.answered failure r).Matching P db s' :=
          ⟨h.stage.answer_other hrequest hdb hmove hne failure, h.change, h.results⟩
        exact hanswered.put_other hne _

/-! ### Whole runs -/

/-- Pools are only added. -/
theorem pools_step (s : NodeRun) (move : PoolMove) :
    s.stage.pools <+: (s.step service move).stage.pools := by
  -- only an answered request can open a pool
  cases move with
  | start db op =>
    unfold NodeRun.step
    dsimp only
    split
    · exact List.prefix_rfl
    · rw [stage_put]
  | next db failure =>
    unfold NodeRun.step
    dsimp only
    split
    · rw [stage_put]
      exact (s.stage.advances_answerReliably failure _).pools
    · exact List.prefix_rfl

theorem pools_after (s : NodeRun) (moves : List PoolMove) :
    s.stage.pools <+: (s.after service moves).stage.pools := by
  induction moves generalizing s with
  | nil => exact List.prefix_rfl
  | cons move moves ih => exact (s.pools_step service move).trans (ih _)

/-- Results stay. -/
theorem results_put (s : NodeRun) (db : String) (rest : Cluster Unit) :
    s.results <+: (s.put db rest).results := by
  cases rest with
  | done a => exact List.prefix_append _ _
  | stop f => exact List.prefix_append _ _
  | ask r k => exact List.prefix_rfl

/-- A move adds results and takes none away. -/
theorem results_step (s : NodeRun) (move : PoolMove) :
    s.results <+: (s.step service move).results := by
  cases move with
  | start db op =>
    unfold NodeRun.step
    dsimp only
    split
    · exact List.prefix_rfl
    · exact s.results_put db _
  | next db failure =>
    unfold NodeRun.step
    dsimp only
    split
    · exact (s.answered failure _).results_put db _
    · exact List.prefix_rfl

theorem results_after (s : NodeRun) (moves : List PoolMove) :
    s.results <+: (s.after service moves).results := by
  induction moves generalizing s with
  | nil => exact List.prefix_rfl
  | cons move moves ih => exact (s.results_step service move).trans (ih _)

/-- The moves of one database. -/
def movesOf (db : String) (moves : List PoolMove) : List PoolMove :=
  moves.filter fun move => move.db == db

/-- **A run and the runs of the databases alone** keep matching: each database sees of the one what it
sees of its own. -/
theorem matching_after {P : String → PoolId → PoolId → Prop} {s : NodeRun} {alone : String → NodeRun}
    (h : ∀ db, Path.IsName db → s.Matching (P db) db (alone db)) (moves : List PoolMove)
    (hnames : ∀ move ∈ moves, Path.IsName move.db)
    (hpools : ∀ db, Path.IsName db → ∀ i j, SamePlace (s.after service moves).stage.pools
      ((alone db).after service (movesOf db moves)).stage.pools i j → P db i j)
    (hoverflow : ∀ r ∈ (s.after service moves).results, r.2 ≠ .error .overflow)
    (db : String) (hdb : Path.IsName db) :
    (s.after service moves).Matching (P db) db ((alone db).after service (movesOf db moves)) := by
  induction moves generalizing s alone with
  | nil => exact h db hdb
  | cons move moves ih =>
    rw [List.forall_mem_cons] at hnames
    obtain ⟨hmove, hnames⟩ := hnames
    -- the database of the move makes it in its own run too, and the others do not
    let alone' (db : String) : NodeRun :=
      if move.db = db then (alone db).step service move else alone db
    have halone : ∀ db, (alone db).after service (movesOf db (move :: moves))
        = (alone' db).after service (movesOf db moves) := by
      intro db
      by_cases hself : move.db = db
      · rw [movesOf, List.filter_cons_of_pos (by simpa using hself)]
        show ((alone db).step service move).after service (movesOf db moves) = _
        rw [show alone' db = (alone db).step service move from if_pos hself]
      · rw [movesOf, List.filter_cons_of_neg (by simpa using hself)]
        rw [show alone' db = alone db from if_neg hself]
        rfl
    simp only [halone] at hpools ⊢
    have hstart : ∀ db, Path.IsName db → (s.step service move).Matching (P db) db (alone' db) := by
      intro db hdb
      by_cases hself : move.db = db
      · have hstep : alone' db = (alone db).step service move := if_pos hself
        rw [hstep]
        refine (h db hdb).step service hself (fun i j hij => ?_) fun hmem => ?_
        · -- pools that are for the same place now still are in the end
          refine hpools db hdb i j (hij.mono (pools_after service _ moves) ?_)
          rw [hstep]
          exact pools_after service _ _
        · obtain ⟨r, hr, hresult⟩ := List.mem_map.1 hmem
          have hkept := (results_after service (s.step service move) moves).subset
            (List.mem_filter.1 hr).1
          exact hoverflow r hkept hresult
      · rw [show alone' db = alone db from if_neg hself]
        exact (h db hdb).step_other service (h move.db hmove) hdb hmove hself
    exact ih hstart hnames hpools hoverflow

/-- The number of the generation counts the databases that were put in. -/
theorem number_step (s : NodeRun) (move : PoolMove) :
    (s.step service move).stage.generation.number + s.installed.length
      = s.stage.generation.number + (s.step service move).installed.length := by
  have hput : ∀ (s : NodeRun) (db : String) (rest : Cluster Unit),
      (s.put db rest).installed = s.installed := fun s db rest => by cases rest <;> rfl
  cases move with
  | start db op =>
    unfold NodeRun.step
    dsimp only
    split
    · rfl
    · rw [stage_put, hput]
  | next db failure =>
    unfold NodeRun.step
    dsimp only
    split
    · rename_i r rest _
      have hnumber := (s.stage.advances_answerReliably failure r).number
      have hinstalled : (s.answered failure r).installed.length = s.installed.length
          + (installing r (s.stage.answerReliably failure r).1).length := List.length_append
      rw [stage_put, hput, hinstalled]
      -- putting the operation back changes neither the stage nor what was installed
      show (s.stage.answerReliably failure r).2.generation.number + _ = _
      rw [hnumber, Nat.add_right_comm, Nat.add_assoc]
    · rfl

/-- The number of the generation grows with each installation, by one. -/
theorem number_after (s : NodeRun) (moves : List PoolMove) :
    (s.after service moves).stage.generation.number + s.installed.length
      = s.stage.generation.number + (s.after service moves).installed.length := by
  induction moves generalizing s with
  | nil => rfl
  | cons move moves ih =>
    have hstep := s.number_step service move
    have hrest := ih (s.step service move)
    show ((s.step service move).after service moves).stage.generation.number + _
      = _ + ((s.step service move).after service moves).installed.length
    omega

/-! ### What a database sees of a run -/

/-- **A database as it is seen** from outside: the pools by the places that they are for. -/
structure Entry where
  units : SortedMap StorageUnit
  places : SortedMap (Option String)
  rules : RuleSet
  schemas : Schemas

/-- The entry of a database in the current generation. -/
def entry? (s : NodeRun) (db : String) : Option Entry :=
  (s.stage.generation.databases.get? db).map fun d =>
    ⟨d.resource.units, d.resource.pools.map fun _ pool => (s.stage.pools[pool]?).map (·.url), d.rules,
      d.schemas⟩

/-- **Two runs are the same for a database**: its entry in the current generation, everything that is
stored below its metadata and its statistics, how its operations have ended, and whether one is going
on. -/
structure SameFor (db : String) (s s' : NodeRun) : Prop where
  entry : s.entry? db = s'.entry? db
  metadata : Repository.SameAt (Path.database db) s'.stage.repository s.stage.repository
  statistics : Repository.SameAt (Path.child Path.statisticsRoot db) s'.stage.repository
    s.stage.repository
  results : s.resultsOf db = s'.resultsOf db
  busy : s.changes.contains db = s'.changes.contains db

/-- Runs that match are the same for the database. -/
theorem Matching.sameFor
    (h : s.Matching (SamePlace s.stage.pools s'.stage.pools) db s') : s.SameFor db s' where
  entry := by
    have hdatabase := h.stage.generation.database
    unfold entry?
    generalize s.stage.generation.databases.get? db = d, s'.stage.generation.databases.get? db = d'
      at hdatabase ⊢
    cases hdatabase with
    | none => rfl
    | @some d d' hd =>
      -- the pools have other numbers, but they are for the same places
      have hplaces : (d.resource.pools.map fun _ pool => (s.stage.pools[pool]?).map (·.url))
          = d'.resource.pools.map fun _ pool => (s'.stage.pools[pool]?).map (·.url) := by
        refine hd.resource.pools.map_eq fun i j hij => ?_
        obtain ⟨p, p', hi, hj, hurl⟩ := hij
        rw [hi, hj, Option.map_some, Option.map_some, hurl]
      rw [Option.map_some, Option.map_some, hd.resource.units, hplaces, hd.rules, hd.schemas]
  metadata := h.stage.metadata
  statistics := h.stage.statistics
  results := h.results
  busy := by
    have hchange := h.change
    unfold SortedMap.contains
    generalize s.changes.get? db = rest, s'.changes.get? db = rest' at hchange ⊢
    cases hchange <;> rfl

/-- A run matches itself at the start, if what is related are at least the live pools of the
database. -/
theorem Matching.ofStage {stage : Stage} (hfaults : stage.faults = [])
    (hname : ∀ d, stage.generation.databases.get? db = some d → d.name = db)
    (hpools : ∀ pool ∈ stage.generation.livePools, P pool pool) :
    (ofStage stage).Matching P db (ofStage stage) := by
  have hdatabase : Option.Rel (Database.Matching P db) (stage.generation.databases.get? db)
      (stage.generation.databases.get? db) := by
    cases hd : stage.generation.databases.get? db with
    | none => exact .none
    | some d =>
      refine .some ⟨hname d hd, hname d hd, ⟨rfl, fun node => ?_⟩, rfl, rfl⟩
      -- the pools in force are live, and a live pool matches itself
      cases hpool : d.resource.pools.get? node with
      | none => exact .none
      | some pool =>
        refine .some (hpools pool (List.mem_flatMap.2 ⟨d, ?_, ?_⟩))
        · exact List.mem_map.2 ⟨_, (SortedMap.get?_eq_some_iff _).1 hd, rfl⟩
        · exact List.mem_map.2 ⟨_, (SortedMap.get?_eq_some_iff _).1 hpool, rfl⟩
  exact ⟨⟨⟨hdatabase, rfl, Nat.le_refl _⟩, .refl _ _, .refl _ _, rfl, hfaults⟩, .none, rfl⟩

/-- **Operations on different databases do not disturb each other.** In every run without an overflow
and at every moment of it, each database is as if only its own moves had been made; and the number of
the generation has grown by one for each database that was put in. -/
theorem undisturbed (service : Service) {stage : Stage} (hfaults : stage.faults = [])
    (hnamed : ∀ db d, stage.generation.databases.get? db = some d → d.name = db)
    (hopen : ∀ pool ∈ stage.generation.livePools, pool < stage.pools.length)
    (moves : List PoolMove) (hnames : ∀ move ∈ moves, Path.IsName move.db)
    (hoverflow : ∀ r ∈ ((ofStage stage).after service moves).results, r.2 ≠ .error .overflow) :
    let run := (ofStage stage).after service moves
    (∀ db, Path.IsName db → run.SameFor db ((ofStage stage).after service (movesOf db moves)))
      ∧ run.stage.generation.number = stage.generation.number + run.installed.length := by
  intro run
  refine ⟨fun db hdb => Matching.sameFor ?_, ?_⟩
  · let P (db : String) : PoolId → PoolId → Prop :=
      SamePlace run.stage.pools ((ofStage stage).after service (movesOf db moves)).stage.pools
    -- a live pool stands for itself, since pools are only added
    have hlive : ∀ db, ∀ pool ∈ stage.generation.livePools, P db pool pool := by
      intro db pool hpool
      have hself : SamePlace stage.pools stage.pools pool pool :=
        ⟨_, _, List.getElem?_eq_getElem (hopen pool hpool),
          List.getElem?_eq_getElem (hopen pool hpool), rfl⟩
      exact hself.mono (pools_after service (ofStage stage) moves)
        (pools_after service (ofStage stage) _)
    have hstart : ∀ db, Path.IsName db → (ofStage stage).Matching (P db) db (ofStage stage) :=
      fun db _ => .ofStage hfaults (hnamed db) (hlive db)
    exact matching_after service hstart moves hnames (fun _ _ _ _ h => h) hoverflow db hdb
  · exact number_after service (ofStage stage) moves

/-- Two operations overtake each other, and in the end each database is as if it had been alone. The
pool of `x` is the second one that is opened, while alone it is the first one. -/
theorem undisturbed_two_databases :
    let service : Service := ⟨0, ⟨1, 1⟩, fun _ _ => .done ()⟩
    let units (name : String) : SortedMap PoolProperties := .ofList [(name, ⟨"url", "user", "", ∅⟩)]
    let stage : Stage :=
      { repository := .memory .empty
        generation := { databases := Generation.databasesOf [.empty "a", .empty "b"] } }
    let moves := [.start "a" (.register (units "x")), .next "a" none, .start "b" (.alter (units "y")),
        .next "b" none, .next "b" none, .next "a" none]
      ++ (List.replicate 8 [.next "b" none, .next "a" none]).flatten
    let run := (ofStage stage).after service moves
    let alone := (ofStage stage).after service (movesOf "a" moves)
    run.SameFor "a" alone ∧ run.resultsOf "a" = [.ok ()] ∧ run.stage.generation.number = 2
      ∧ run.stage.generation.livePools = [1, 0] ∧ alone.stage.generation.livePools = [0] := by
  intro service units stage moves run alone
  have hrun : let run := (ofStage stage).after service moves
      let alone := (ofStage stage).after service (movesOf "a" moves)
      (∀ r ∈ run.results, r.2 ≠ .error .overflow) ∧ run.resultsOf "a" = [.ok ()]
        ∧ run.installed.length = 2 ∧ run.stage.generation.livePools = [1, 0]
        ∧ alone.stage.generation.livePools = [0] := by
    decide +kernel
  -- the runs are never evaluated again from here on
  obtain ⟨hoverflow, hresults, hinstalled, hlive, halone⟩ := hrun
  have hnames : ∀ move ∈ moves, Path.IsName move.db := by decide +kernel
  have hnamed : ∀ db d, stage.generation.databases.get? db = some d → d.name = db := by
    intro db d hd
    obtain ⟨d', -, heq⟩ := List.mem_map.1 (SortedMap.mem_of_get?_ofList hd)
    obtain ⟨rfl, rfl⟩ := Prod.mk.inj heq
    rfl
  have hopen : ∀ pool ∈ stage.generation.livePools, pool < stage.pools.length := by decide +kernel
  have hfaults : stage.faults = [] := rfl
  have hfirst : stage.generation.number = 0 := rfl
  have hafter : (ofStage stage).after service moves = run := rfl
  have hafter' : (ofStage stage).after service (movesOf "a" moves) = alone := rfl
  clear_value run alone stage
  subst hafter hafter'
  obtain ⟨hsame, hnumber⟩ := undisturbed service hfaults hnamed hopen moves hnames hoverflow
  rw [hfirst, hinstalled] at hnumber
  exact ⟨hsame "a" (by decide), hresults, hnumber, hlive, halone⟩

end NodeRun

end ClusterCatalog
