import Mathlib.Tactic.Abel
import ClusterCatalog.Proofs.Cluster.Exchange
import ClusterCatalog.Proofs.Simulation.Stage

/-!
# Who owns a pool

Operations on storage units run on one node. For one database there is at most one at a time; for
different databases they overtake each other between any two requests. Every call of the repository,
every build of a generation and every opening of a pool can fail.

A pool is at any time in one of three hands: a change holds it, the current generation has it, or it
was retired. `PoolRun.Owned` says so as an equation between bags: what was opened, each pool once, is
what is held, live and retired. A request moves pools from hand to hand and keeps the sum
(`PoolRun.Request`), because it is made on the terms of its operation; and an operation that is over
holds nothing.

* `PoolRun.Owned.step` and `PoolRun.Owned.after` — every move and every run keeps this.
* `PoolRun.owned_once` — so no pool leaks, is retired twice or is retired while it is live.
-/

namespace ClusterCatalog

/-- The live pools of a generation, database by database. -/
def Generation.livePools (g : Generation) : List PoolId :=
  g.databases.values.flatMap fun d => d.resource.pools.values

/-! ### Runs -/

/-- **A move of a run**: an operation on a database is started, or the one that is going on makes its
next request, which may fail. -/
inductive PoolMove where
  | start (db : String) (op : UnitOperation)
  | next (db : String) (failure : Option Error)

/-- **An operation that is going on**, with what is left of it. -/
structure OpenChange where
  rest : Cluster Unit
  /-- The pools that it has opened and not installed, or replaced and not handed over. -/
  held : Multiset PoolId

/-- **A node and the operations on it.** -/
structure PoolRun where
  stage : Stage
  /-- The operations that are going on, by database. -/
  changes : SortedMap OpenChange := ∅
  /-- The pools that were live at the start or have been opened since. -/
  opened : List PoolId
  /-- The pools that were handed over to be drained, as often as that was done. -/
  retired : List PoolId := []
  /-- How operations failed. -/
  failures : List Failure := []

namespace PoolRun

open Plan

/-- The run at the start. -/
def ofStage (stage : Stage) : PoolRun := { stage, opened := stage.generation.livePools }

/-- The pools that a request opens. -/
def opening : (r : ClusterRequest) → r.Reply → List PoolId
  | .openPool .., .ok pool => [pool]
  | _, _ => []

/-- The pools that a request retires. -/
def retiring : ClusterRequest → List PoolId
  | .retire _ pools => pools
  | _ => []

/-- What an operation holds after a request: an opened pool, too; after an installation, what it has
replaced and no longer what it has put in; and not what it has retired. -/
def holding (held : Multiset PoolId) (before : Generation) :
    (r : ClusterRequest) → r.Reply → Multiset PoolId
  | .openPool .., .ok pool => pool ::ₘ held
  | .installDatabase d, .ok _ =>
    held + (before.databases.get? d.name).elim 0 (fun old => poolBag old.resource.pools)
      - poolBag d.resource.pools
  | .retire _ pools, _ => held - (pools : Multiset PoolId)
  | _, _ => held

/-- The run with an operation put back after a request. If it is over, it is taken off, and with it
whatever it may still hold. -/
def put (s : PoolRun) (db : String) (held : Multiset PoolId) : Cluster Unit → PoolRun
  | .done _ => { s with changes := s.changes.erase db }
  | .stop f => { s with changes := s.changes.erase db, failures := f :: s.failures }
  | rest => { s with changes := s.changes.insert db ⟨rest, held⟩ }

/-- The run after a move. An operation on a database that has one already is not started. -/
def step (service : Service) (s : PoolRun) : PoolMove → PoolRun
  | .start db op => if s.changes.contains db then s else s.put db 0 (op.run service db)
  | .next db failure =>
    match s.changes.get? db with
    | some ⟨.ask r rest, held⟩ =>
      let answered := Stage.answerUnless failure r s.stage
      let s' : PoolRun :=
        { s with
          stage := answered.2
          opened := s.opened ++ opening r answered.1
          retired := s.retired ++ retiring r }
      s'.put db (holding held s.stage.generation r answered.1) (rest answered.1)
    | _ => s

/-- The run after all moves. -/
def after (service : Service) (s : PoolRun) (moves : List PoolMove) : PoolRun :=
  moves.foldl (step service) s

/-- What all operations hold. -/
def held (s : PoolRun) : Multiset PoolId := s.changes.total (·.held)

/-! ### One request -/

/-- The live pools of a generation as a bag. -/
def liveBag (g : Generation) : Multiset PoolId :=
  g.databases.total fun d => poolBag d.resource.pools

theorem coe_livePools (g : Generation) : (g.livePools : Multiset PoolId) = liveBag g := by
  unfold Generation.livePools liveBag
  rw [SortedMap.total_eq_sum_values]
  induction g.databases.values with
  | nil => rfl
  | cons d ds ih =>
    rw [List.flatMap_cons, List.map_cons, List.sum_cons, ← ih, poolBag_eq]
    rfl

/-- **Databases stand under their own names**, and their pools fit their units. -/
def WellFormed (g : Generation) : Prop :=
  ∀ db d, g.databases.get? db = some d → d.name = db ∧ d.resource.Fits

/-- A list of databases whose pools fit their units makes a well-formed generation. -/
theorem wellFormed_databasesOf {l : List Database} (h : ∀ d ∈ l, d.resource.Fits) {g : Generation}
    (hg : g.databases = Generation.databasesOf l) : WellFormed g := by
  intro db d hd
  rw [hg] at hd
  obtain ⟨d', hd', heq⟩ := List.mem_map.1 (SortedMap.mem_of_get?_ofList hd)
  obtain ⟨rfl, rfl⟩ := Prod.mk.inj heq
  exact ⟨rfl, h d' hd'⟩

/-- **What a request of an operation on `db` does**: it follows the terms of the operation, leaves
the other databases alone, and moves pools from hand to hand without losing one. -/
structure Request (db : String) (held : Multiset PoolId) (s : Stage) (r : ClusterRequest)
    (answered : r.Reply × Stage) : Prop where
  answers : (unitTerms db).Answers r ⟨held, s.generation.databases.get? db⟩ answered.1
    ⟨holding held s.generation r answered.1, answered.2.generation.databases.get? db⟩
  others : ∀ name, name ≠ db →
    answered.2.generation.databases.get? name = s.generation.databases.get? name
  wellFormed : WellFormed answered.2.generation
  balanced : holding held s.generation r answered.1 + liveBag answered.2.generation
      + (retiring r : Multiset PoolId)
    = held + liveBag s.generation + (opening r answered.1 : Multiset PoolId)
  fresh : s.pools.length ≤ answered.2.pools.length ∧ ∀ pool ∈ opening r answered.1,
    pool = s.pools.length ∧ pool < answered.2.pools.length
  distinct : (opening r answered.1).Nodup

variable {db : String} {held : Multiset PoolId} {s : Stage}

/-- A request that neither changes the generation nor moves a pool. -/
theorem Request.ofIdle (hwell : WellFormed s.generation) {r : ClusterRequest}
    {answered : r.Reply × Stage} (hgeneration : answered.2.generation = s.generation)
    (hpools : answered.2.pools = s.pools)
    (hholding : holding held s.generation r answered.1 = held) (hopening : opening r answered.1 = [])
    (hretiring : retiring r = [])
    (hanswers : (unitTerms db).Answers r ⟨held, s.generation.databases.get? db⟩ answered.1
      ⟨held, s.generation.databases.get? db⟩) : Request db held s r answered where
  answers := by rw [hholding, hgeneration]; exact hanswers
  others name _ := by rw [hgeneration]
  wellFormed := by rw [hgeneration]; exact hwell
  balanced := by rw [hholding, hgeneration, hopening, hretiring]
  fresh := by
    rw [hpools, hopening]
    exact ⟨Nat.le_refl _, fun _ h => absurd h List.not_mem_nil⟩
  distinct := by rw [hopening]; exact List.nodup_nil

/-- Putting a database into a generation moves its pools. -/
theorem Request.ofInstall (hwell : WellFormed s.generation) {d : Database} {g : Generation}
    (hg : s.generation.succeededBy d = .ok g)
    (howed : (unitTerms db).Owed (.installDatabase d) ⟨held, s.generation.databases.get? db⟩) :
    Request db held s (.installDatabase d) (.ok g, { s with generation := g }) := by
  obtain ⟨rfl, hfits, hpools⟩ := howed
  have hdatabases := Generation.databases_of_succeededBy hg
  have hget : g.databases.get? d.name = some d := by
    rw [hdatabases, SortedMap.get?_insert_self]
  refine ⟨?_, fun name hne => ?_, fun name other hother => ?_, ?_, ?_, List.nodup_nil⟩
  · show (⟨_, g.databases.get? d.name⟩ : Holding) = _
    rw [hget]
    rfl
  · show g.databases.get? name = _
    rw [hdatabases, SortedMap.get?_insert_of_ne _ _ hne]
  · change g.databases.get? name = some other at hother
    rw [hdatabases, SortedMap.get?_insert] at hother
    split at hother
    · rename_i hname
      obtain rfl := Option.some.inj hother
      exact ⟨hname.symm, hfits⟩
    · exact hwell name other hother
  -- what is installed comes to the live pools, and what stood under the name goes from them
  · have htotal : liveBag g + (s.generation.databases.get? d.name).elim 0
        (fun old => poolBag old.resource.pools)
        = poolBag d.resource.pools + liveBag s.generation := by
      unfold liveBag
      rw [hdatabases]
      exact SortedMap.total_insert (fun d : Database => poolBag d.resource.pools) _ d.name d
    show held + (s.generation.databases.get? d.name).elim 0 (fun old => poolBag old.resource.pools)
      - poolBag d.resource.pools + liveBag g + 0 = held + liveBag s.generation + 0
    change poolBag d.resource.pools ≤ held + (s.generation.databases.get? d.name).elim 0 _ at hpools
    generalize (s.generation.databases.get? d.name).elim 0
      (fun old : Database => poolBag old.resource.pools) = old at htotal hpools ⊢
    rw [add_zero, add_zero]
    refine add_right_cancel (b := old) ?_
    calc held + old - poolBag d.resource.pools + liveBag g + old
        = held + old - poolBag d.resource.pools + poolBag d.resource.pools + liveBag s.generation := by
          rw [add_assoc, htotal, ← add_assoc]
      _ = held + old + liveBag s.generation := by rw [tsub_add_cancel_of_le hpools]
      _ = held + liveBag s.generation + old := add_right_comm _ _ _
  · exact ⟨Nat.le_refl _, fun _ h => absurd h List.not_mem_nil⟩

/-- A pool that is opened has the next number, and the operation holds it. -/
theorem Request.ofOpening (hwell : WellFormed s.generation) (unit : String)
    (properties : PoolProperties) : Request db held s (.openPool unit properties)
      (.ok (s.openPool unit properties.url).1, (s.openPool unit properties.url).2) := by
  have hlength : (s.openPool unit properties.url).2.pools.length = s.pools.length + 1 :=
    List.length_append
  refine ⟨rfl, fun _ _ => rfl, hwell, ?_, ⟨?_, fun pool hpool => ?_⟩, List.nodup_singleton _⟩
  · show s.pools.length ::ₘ held + liveBag s.generation + 0
      = held + liveBag s.generation + {s.pools.length}
    rw [add_zero, Multiset.cons_add]
    exact (Multiset.singleton_add _ _).symm.trans (add_comm _ _)
  · exact Nat.le_of_lt (hlength ▸ Nat.lt_succ_self _)
  · obtain rfl := List.mem_singleton.1 hpool
    exact ⟨rfl, hlength ▸ Nat.lt_succ_self _⟩

/-- **Every request** of an operation on its terms moves pools from hand to hand. -/
theorem request_answerUnless (hwell : WellFormed s.generation) (failure : Option Error)
    (r : ClusterRequest) (howed : (unitTerms db).Owed r ⟨held, s.generation.databases.get? db⟩) :
    Request db held s r (Stage.answerUnless failure r s) := by
  have hled := s.leadsTo_answerUnless failure r
  generalize Stage.answerUnless failure r s = answered at hled ⊢
  cases hled with
  | answered call =>
    obtain ⟨hgeneration, hpools⟩ := s.answerStore_frame call
    exact .ofIdle hwell hgeneration hpools rfl rfl rfl rfl
  | refused call => exact .ofIdle hwell rfl rfl rfl rfl rfl rfl
  | current => exact .ofIdle hwell rfl rfl rfl rfl rfl ⟨rfl, rfl⟩
  | built name isNew diff before => exact .ofIdle hwell rfl rfl rfl rfl rfl ⟨.inl rfl, rfl⟩
  | notBuilt name isNew diff before e => exact .ofIdle hwell rfl rfl rfl rfl rfl ⟨.inr ⟨e, rfl⟩, rfl⟩
  | opened unit properties => exact .ofOpening hwell unit properties
  | notOpened unit properties e => exact .ofIdle hwell rfl rfl rfl rfl rfl rfl
  | installed hg => exact .ofInstall hwell hg howed
  | notInstalled d => exact .ofIdle hwell rfl rfl rfl rfl rfl ⟨rfl, rfl⟩
  | found timeout hgoal => exact .ofIdle hwell rfl rfl rfl rfl rfl rfl
  | notFound goal timeout => exact .ofIdle hwell rfl rfl rfl rfl rfl rfl
  | retired policy pools handedOver handovers =>
    -- what is handed over was held, so the difference is exact
    refine ⟨rfl, fun _ _ => rfl, hwell, ?_, ⟨Nat.le_refl _, fun _ h => absurd h List.not_mem_nil⟩,
      List.nodup_nil⟩
    show held - (pools : Multiset PoolId) + liveBag s.generation + pools
      = held + liveBag s.generation + 0
    rw [add_right_comm, tsub_add_cancel_of_le howed, add_zero]
  | announced name event reply => exact .ofIdle hwell rfl rfl rfl rfl rfl rfl

/-! ### The invariant -/

/-- **The invariant of a run**: every pool that was opened is in one hand. -/
structure Owned (s : PoolRun) : Prop where
  /-- What was opened is held, live or retired. -/
  balanced : (s.opened : Multiset PoolId)
    = s.held + liveBag s.stage.generation + (s.retired : Multiset PoolId)
  /-- No pool is opened twice. -/
  distinct : s.opened.Nodup
  fresh : ∀ pool ∈ s.opened, pool < s.stage.pools.length
  wellFormed : WellFormed s.stage.generation
  /-- What is left of an operation keeps to its terms, and will hold nothing when it is over. -/
  keeps : ∀ db c, s.changes.get? db = some c →
    c.rest.Keeps (unitTerms db) (Holding.Settled db) ⟨c.held, s.stage.generation.databases.get? db⟩

/-- An operation is put back. If it is over without an overflow, it holds nothing. -/
theorem owned_put {s : PoolRun} {db : String} {held : Multiset PoolId} {rest : Cluster Unit}
    (hbalanced : (s.opened : Multiset PoolId) = held + (s.changes.erase db).total (·.held)
      + liveBag s.stage.generation + (s.retired : Multiset PoolId))
    (hdistinct : s.opened.Nodup) (hfresh : ∀ pool ∈ s.opened, pool < s.stage.pools.length)
    (hwell : WellFormed s.stage.generation)
    (hothers : ∀ name c, name ≠ db → s.changes.get? name = some c →
      c.rest.Keeps (unitTerms name) (Holding.Settled name)
        ⟨c.held, s.stage.generation.databases.get? name⟩)
    (hrest : rest.Keeps (unitTerms db) (Holding.Settled db)
      ⟨held, s.stage.generation.databases.get? db⟩)
    (hoverflow : .overflow ∉ (s.put db held rest).failures) : (s.put db held rest).Owned := by
  have herased : ∀ name c, (s.changes.erase db).get? name = some c →
      name ≠ db ∧ s.changes.get? name = some c := by
    intro name c hc
    rw [SortedMap.get?_erase] at hc
    split at hc
    · cases hc
    · exact ⟨‹_›, hc⟩
  -- an operation that is over is dropped from the sum, which is as good if it holds nothing
  have hover : held = 0 → (s.opened : Multiset PoolId) = (s.changes.erase db).total (·.held)
      + liveBag s.stage.generation + (s.retired : Multiset PoolId) := by
    rintro rfl
    rw [hbalanced, zero_add]
  cases rest with
  | done result =>
    -- the operation is over, and by its terms it holds nothing
    refine ⟨hover hrest.1, hdistinct, hfresh, hwell, fun name c hc => ?_⟩
    obtain ⟨hne, hc⟩ := herased name c hc
    exact hothers name c hne hc
  | stop f =>
    cases f with
    -- an overflow breaks an operation off in the middle, and its pools would be lost
    | overflow => exact absurd List.mem_cons_self hoverflow
    | error e =>
      refine ⟨hover hrest.1, hdistinct, hfresh, hwell, fun name c hc => ?_⟩
      obtain ⟨hne, hc⟩ := herased name c hc
      exact hothers name c hne hc
  | ask r k =>
    -- the operation goes on with what it holds now
    refine ⟨?_, hdistinct, hfresh, hwell, fun name c hc => ?_⟩
    · have hinsert := SortedMap.total_insert (·.held) s.changes db ⟨.ask r k, held⟩
      rw [← SortedMap.total_erase (·.held) s.changes db, ← add_assoc] at hinsert
      have hheld : (s.put db held (.ask r k)).held = held + (s.changes.erase db).total (·.held) :=
        add_right_cancel hinsert
      rw [hheld]
      exact hbalanced
    · change (s.changes.insert db ⟨.ask r k, held⟩).get? name = some c at hc
      rw [SortedMap.get?_insert] at hc
      split at hc
      · rename_i hname
        subst hname
        obtain rfl := Option.some.inj hc
        exact hrest
      · exact hothers name c ‹_› hc

/-- **One request** of an operation that is going on keeps the invariant. -/
theorem Owned.next {s : PoolRun} (h : s.Owned) {db : String} {r : ClusterRequest}
    {rest : r.Reply → Cluster Unit} {held : Multiset PoolId}
    (hchange : s.changes.get? db = some ⟨.ask r rest, held⟩) (failure : Option Error) :
    let answered := Stage.answerUnless failure r s.stage
    let s' : PoolRun :=
      { s with
        stage := answered.2
        opened := s.opened ++ opening r answered.1
        retired := s.retired ++ retiring r }
    let s'' := s'.put db (holding held s.stage.generation r answered.1) (rest answered.1)
    .overflow ∉ s''.failures → s''.Owned := by
  intro answered s' s'' hoverflow
  obtain ⟨howed, hrest⟩ := h.keeps db _ hchange
  have hrequest : Request db held s.stage r answered :=
    request_answerUnless h.wellFormed failure r howed
  -- the total over all operations is split into this one and the others
  have herase := SortedMap.total_erase (·.held) s.changes db
  rw [hchange, Option.elim_some] at herase
  refine owned_put ?_ ?_ ?_ hrequest.wellFormed ?_ (hrest _ _ hrequest.answers) hoverflow
  · -- the other operations hold what they held; the balance of the request does the rest
    have hbalanced := hrequest.balanced
    have hbefore := h.balanced
    unfold PoolRun.held at hbefore
    rw [← herase] at hbefore
    generalize holding held s.stage.generation r answered.1 = held' at hbalanced ⊢
    show ((s.opened ++ opening r answered.1 : List PoolId) : Multiset PoolId)
      = held' + (s.changes.erase db).total (·.held) + liveBag answered.2.generation
        + ((s.retired ++ retiring r : List PoolId) : Multiset PoolId)
    rw [← Multiset.coe_add, ← Multiset.coe_add, hbefore]
    generalize (s.changes.erase db).total (·.held) = others at *
    calc others + held + liveBag s.stage.generation + ↑s.retired + ↑(opening r answered.1)
        = others + ↑s.retired
          + (held + liveBag s.stage.generation + ↑(opening r answered.1)) := by abel
      _ = others + ↑s.retired
          + (held' + liveBag answered.2.generation + ↑(retiring r)) := by rw [hbalanced]
      _ = held' + others + liveBag answered.2.generation + (↑s.retired + ↑(retiring r)) := by abel
  · -- a pool that is opened has a number that no pool had
    refine List.nodup_append.2 ⟨h.distinct, hrequest.distinct, ?_⟩
    rintro pool hpool _ hopened rfl
    have hlt := h.fresh pool hpool
    rw [(hrequest.fresh.2 pool hopened).1] at hlt
    exact Nat.lt_irrefl _ hlt
  · intro pool hpool
    rcases List.mem_append.1 hpool with hpool | hpool
    · exact Nat.lt_of_lt_of_le (h.fresh pool hpool) hrequest.fresh.1
    · exact (hrequest.fresh.2 pool hpool).2
  · -- operations on other databases have not noticed the request
    intro name c hne hc
    show c.rest.Keeps (unitTerms name) (Holding.Settled name)
      ⟨c.held, answered.2.generation.databases.get? name⟩
    rw [hrequest.others name hne]
    exact h.keeps name c hc

/-- **One move** keeps the invariant. -/
theorem Owned.step (service : Service) {s : PoolRun} (h : s.Owned) (move : PoolMove)
    (hoverflow : .overflow ∉ (s.step service move).failures) : (s.step service move).Owned := by
  cases move with
  | start db op =>
    unfold PoolRun.step at hoverflow ⊢
    dsimp only at hoverflow ⊢
    split at hoverflow
    -- there is an operation on the database already
    · rename_i hbusy
      rw [if_pos hbusy]
      exact h
    · rename_i hbusy
      rw [if_neg hbusy]
      have herase := SortedMap.total_erase (·.held) s.changes db
      have hnone : s.changes.get? db = none := by
        cases hget : s.changes.get? db with
        | none => rfl
        | some c => rw [SortedMap.contains, hget] at hbusy; exact absurd rfl hbusy
      rw [hnone, Option.elim_none, add_zero] at herase
      -- an operation starts without a pool
      refine owned_put ?_ h.distinct h.fresh h.wellFormed (fun name c _ => h.keeps name c) ?_ hoverflow
      · rw [herase, zero_add]
        exact h.balanced
      · exact op.keeps_run service ⟨rfl, fun d hd => h.wellFormed db d hd⟩
  | next db failure =>
    unfold PoolRun.step at hoverflow ⊢
    dsimp only at hoverflow ⊢
    split at hoverflow
    · rename_i r rest held hchange
      exact h.next hchange failure hoverflow
    · exact h

/-- A failure that was met stays recorded. -/
theorem mem_failures_put {s : PoolRun} {db : String} {held : Multiset PoolId} {rest : Cluster Unit}
    {f : Failure} (h : f ∈ s.failures) : f ∈ (s.put db held rest).failures := by
  cases rest with
  | done _ => exact h
  | stop _ => exact List.mem_cons_of_mem _ h
  | ask _ _ => exact h

/-- A failure that was noted stays noted. -/
theorem mem_failures_step (service : Service) {s : PoolRun} {f : Failure} (h : f ∈ s.failures)
    (move : PoolMove) : f ∈ (s.step service move).failures := by
  -- the only thing that is ever done to the list is to add to it
  cases move with
  | start db op =>
    unfold PoolRun.step
    dsimp only
    split
    · exact h
    · exact mem_failures_put h
  | next db failure =>
    unfold PoolRun.step
    dsimp only
    split
    · exact mem_failures_put h
    · exact h

theorem mem_failures_after (service : Service) {s : PoolRun} {f : Failure} (h : f ∈ s.failures)
    (moves : List PoolMove) : f ∈ (s.after service moves).failures := by
  induction moves generalizing s with
  | nil => exact h
  | cons move moves ih => exact ih (mem_failures_step service h move)

/-- **Every run** without an overflow keeps the invariant. -/
theorem Owned.after (service : Service) {s : PoolRun} (h : s.Owned) (moves : List PoolMove)
    (hoverflow : .overflow ∉ (s.after service moves).failures) :
    (s.after service moves).Owned := by
  induction moves generalizing s with
  | nil => exact h
  | cons move moves ih =>
    refine ih (h.step service move fun hmem => hoverflow ?_) hoverflow
    exact mem_failures_after service hmem moves

/-- The invariant holds of a run in which nothing has been started. -/
theorem Owned.ofStage {stage : Stage} (hwell : WellFormed stage.generation)
    (hdistinct : stage.generation.livePools.Nodup)
    (hopen : ∀ pool ∈ stage.generation.livePools, pool < stage.pools.length) :
    (ofStage stage).Owned where
  balanced := by
    show (stage.generation.livePools : Multiset PoolId) = 0 + liveBag stage.generation + 0
    rw [coe_livePools, zero_add, add_zero]
  distinct := hdistinct
  fresh := hopen
  wellFormed := hwell
  keeps db c hc := by cases hc

/-- **Every opened pool is in one hand.** -/
structure InOneHand (s : PoolRun) : Prop where
  /-- A pool that was opened is held by an operation, live in a database of the current generation or
  retired, once and in one of these hands only; and no other pool is anywhere. -/
  count_eq : ∀ pool,
    s.held.count pool + s.stage.generation.livePools.count pool + s.retired.count pool
      = if pool ∈ s.opened then 1 else 0
  /-- No live pool was ever retired. -/
  not_retired : ∀ pool ∈ s.stage.generation.livePools, pool ∉ s.retired
  /-- While no operation is going on, the pools that were opened and not retired are the live
  ones. -/
  live_iff : s.changes = ∅ →
    ∀ pool, pool ∈ s.stage.generation.livePools ↔ pool ∈ s.opened ∧ pool ∉ s.retired

/-- **From the balance to the single pool**: it is counted in one of the three hands, once. -/
theorem Owned.inOneHand {s : PoolRun} (h : s.Owned) : s.InOneHand := by
  have hcount : ∀ pool, s.held.count pool + s.stage.generation.livePools.count pool
      + s.retired.count pool = if pool ∈ s.opened then 1 else 0 := by
    intro pool
    have hbalanced := congrArg (Multiset.count pool) h.balanced
    rw [Multiset.count_add, Multiset.count_add, ← coe_livePools, Multiset.coe_count,
      Multiset.coe_count, Multiset.coe_count] at hbalanced
    rw [← hbalanced]
    split
    · exact List.count_eq_one_of_mem h.distinct ‹_›
    · exact List.count_eq_zero_of_not_mem ‹_›
  refine ⟨hcount, fun pool hlive hretired => ?_, fun hdone pool => ?_⟩
  · -- live and retired would be two hands
    have hle : (if pool ∈ s.opened then 1 else 0) ≤ 1 := by split <;> omega
    have hlive := List.count_pos_iff.2 hlive
    have hretired := List.count_pos_iff.2 hretired
    have := hcount pool
    omega
  · -- while nothing is held, two hands are left
    have hnone : s.held.count pool = 0 := by
      rw [held, hdone]
      rfl
    have hsum := hcount pool
    rw [hnone, zero_add] at hsum
    rw [← List.count_pos_iff, ← List.count_eq_zero]
    split at hsum
    · rename_i hopened
      refine ⟨fun hlive => ⟨hopened, by omega⟩, ?_⟩
      rintro ⟨-, hretired⟩
      omega
    · rename_i hopened
      refine ⟨fun hlive => by omega, ?_⟩
      rintro ⟨h, -⟩
      exact absurd h hopened

/-- **No pool leaks, and no live pool is closed.** Let the pools of a generation be open and
distinct, and each the pool of a unit of its database; let databases and units stand under their own
names (`WellFormed`). Then in every run of operations on storage units without an overflow, every
opened pool is in one hand. -/
theorem owned_once (service : Service) {stage : Stage} (hwell : WellFormed stage.generation)
    (hdistinct : stage.generation.livePools.Nodup)
    (hopen : ∀ pool ∈ stage.generation.livePools, pool < stage.pools.length)
    (moves : List PoolMove)
    (hoverflow : .overflow ∉ ((ofStage stage).after service moves).failures) :
    ((ofStage stage).after service moves).InOneHand :=
  ((Owned.ofStage hwell hdistinct hopen).after service moves hoverflow).inOneHand

/-- Two operations overtake each other. The pool of `x` is exchanged, and its first pool is replaced
but not yet handed over; meanwhile a pool for `z` is opened and given up, since a call is refused.
The replaced pool is held. -/
theorem owned_once_two_databases :
    let service : Service := ⟨0, ⟨1, 1⟩, fun _ _ => .done ()⟩
    let unit (name : String) : SortedMap PoolProperties := .ofList [(name, ⟨"url", "user", "", ∅⟩)]
    let database (db name : String) (pool : PoolId) : Database :=
      { name := db, resource := ⟨.ofList [(name, pool)], Resource.unitsOf (unit name)⟩ }
    let stage : Stage :=
      { repository := .memory .empty
        generation := { databases := Generation.databasesOf [database "a" "x" 0, database "b" "y" 1] }
        pools := [⟨"x", "url", 0, false, false⟩, ⟨"y", "url", 0, false, false⟩] }
    let moves := [.start "a" (.alter (unit "x")), .start "b" (.register (unit "z")),
        .next "b" none, .next "a" none, .next "a" none, .next "b" none]
      ++ List.replicate 6 (.next "a" none)
      ++ [.next "b" none, .next "b" (some (.repository "down")), .next "b" none, .next "b" none]
    let s := (ofStage stage).after service moves
    (s.opened = [0, 1, 2, 3] ∧ s.stage.generation.livePools = [2, 1] ∧ s.retired = [3])
      ∧ s.held.count 0 = 1 := by
  intro service unit database stage moves s
  have hhands : s.opened = [0, 1, 2, 3] ∧ s.stage.generation.livePools = [2, 1]
      ∧ s.retired = [3] ∧ .overflow ∉ s.failures := by decide +kernel
  obtain ⟨hopened, hlive, hretired, hoverflow⟩ := hhands
  -- the units of both databases stand under their own names
  have hwell : WellFormed stage.generation := by
    refine wellFormed_databasesOf (l := [database "a" "x" 0, database "b" "y" 1]) ?_ rfl
    have hfits : ∀ db name pool, (database db name pool).resource.Fits := fun db name pool =>
      Resource.fits_unitsOf fun node hnode => by
        obtain ⟨found, hfound⟩ := SortedMap.contains_ofList.1 hnode
        obtain rfl := (Prod.mk.inj (List.mem_singleton.1 hfound)).1
        exact SortedMap.contains_ofList.2 ⟨_, List.mem_cons_self⟩
    simp [hfits]
  have hone : s.InOneHand :=
    owned_once service hwell (by decide +kernel) (by decide +kernel) moves hoverflow
  clear_value s
  have hcount := hone.count_eq 0
  rw [hopened, hlive, hretired] at hcount
  exact ⟨⟨hopened, hlive, hretired⟩, hcount⟩

end PoolRun

end ClusterCatalog
