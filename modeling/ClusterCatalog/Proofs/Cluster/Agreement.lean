import ClusterCatalog.Proofs.Cluster.Interleaving
import ClusterCatalog.Proofs.Cluster.Retry
import ClusterCatalog.Proofs.Store.InOrder

/-!
# Store and generation agree

The storage units of a database are kept twice: the repository has their properties, and the current
generation has the units. A change writes the one and then installs the other, and each kind of change
looks at another side to find out what there is to do. They agree all the same, after every operation,
as long as the repository refuses nothing.

What an operation relies on is more than this agreement: what is stored of each unit is the written
form of its properties, and the items of the database are in order, so that a change that has begun to
write also gets to the end (`Scene.Calm`). An operation that is alone on its database leaves it calm
and finds it calm whenever it opens a pool (`UnitOperation.keeps_run_calm`). That it is alone is no
restriction: operations on other databases do not disturb it (`NodeRun.matching_after`).

`NodeRun.agrees_after` is the result.
-/

namespace ClusterCatalog

open Plan

/-! ### A calm database -/

namespace Scene

variable {db : String} {s : Scene}

/-- **A database is calm**: what is stored of each unit is the written form of what is live, and
writing to the database goes well. -/
structure Calm (db : String) (s : Scene) : Prop where
  named : s.Named db
  units : ∀ name, (s.unit db name).stored
    = (s.unit db name).live.map fun u => .ok (some (Codec.write u.properties))
  inOrder : s.store.InOrder db
  schemas : ∀ d, s.database = some d → d.schemas.HaveNames

theorem get?_properties (s : Scene) (name : String) :
    s.resource.properties.get? name = (s.resource.units.get? name).map (·.properties) :=
  SortedMap.get?_map _ _ _

/-- A live unit is shown by its item, and there is no item of any other. -/
theorem Calm.showsAt (h : s.Calm db) {name : String} (hname : Path.IsName name) :
    Item.ShowsAt s.store (Path.storageUnit db name)
      ((s.resource.properties.get? name).map Codec.write) := by
  have hunit : Stored.unit? s.store db name
      = (s.resource.units.get? name).map fun u => .ok (some (Codec.write u.properties)) := h.units name
  rw [s.get?_properties name]
  unfold Stored.unit? at hunit
  -- a unit that is listed has a node, and one that has a node is listed, as it has a name
  split at hunit
  · rename_i hlisted
    have hnode := (Stored.mem_children_storageUnits.1 hlisted).2
    cases hlive : s.resource.units.get? name with
    | none =>
      rw [hlive] at hunit
      cases hunit
    | some u =>
      rw [hlive] at hunit
      exact ⟨hnode, Option.some.inj hunit⟩
  · rename_i hlisted
    cases hlive : s.resource.units.get? name with
    | some u =>
      rw [hlive] at hunit
      cases hunit
    | none =>
      show s.store.query (Path.storageUnit db name) = none
      by_contra hsome
      exact hlisted (Stored.mem_children_storageUnits.2 ⟨hname, Option.isSome_iff_ne_none.2 hsome⟩)

/-- Live units have names. -/
theorem Calm.isName (h : s.Calm db) {name : String}
    (hlive : s.resource.properties.contains name = true) : Path.IsName name := by
  by_contra hname
  obtain ⟨properties, hproperties⟩ := SortedMap.contains_iff.1 hlive
  rw [s.get?_properties name] at hproperties
  obtain ⟨u, hu, -⟩ := Option.map_eq_some_iff.1 hproperties
  have hunit : Stored.unit? s.store db name
      = (s.resource.units.get? name).map fun u => .ok (some (Codec.write u.properties)) := h.units name
  rw [Stored.unit?_of_not_isName hname, hu] at hunit
  cases hunit

/-- **In a calm database store and generation agree.** -/
theorem Calm.agrees (h : s.Calm db) : s.Agrees db where
  named := h.named
  stored := by
    have hreads : Access.Reads s.store (Stored.loadUnits db) (.ok s.resource.properties) :=
      Stored.reads_listed Codec.read?_write_poolProperties (Path.below_storageUnits db)
        (fun _ hlive => h.isName hlive) (fun _ hname => h.showsAt hname) fun name => do
          Access.warn (.unitWithoutActiveVersion name db)
          return []
    exact congrArg Prod.fst hreads.run

/-- A database without units in an empty repository. -/
theorem Calm.of_empty (hempty : s.store.nodes = ∅)
    (hname : ∀ d, s.database = some d → d.name = db ∧ d.resource.units = ∅)
    (hschemas : ∀ d, s.database = some d → d.schemas.HaveNames) : s.Calm db := by
  have hnone : ∀ name, s.resource.units.get? name = none := by
    intro name
    unfold resource
    cases hd : s.database with
    | none => rfl
    | some d =>
      show d.resource.units.get? name = none
      rw [(hname d hd).2]
      rfl
  -- with no units on either side, all that is asked about units is empty
  refine ⟨fun d hd => ⟨(hname d hd).1, fun name u hu => ?_⟩, fun name => ?_,
    Repository.inOrder_of_nodes_eq_empty hempty db, hschemas⟩
  · rw [(hname d hd).2] at hu
    cases hu
  · -- no unit is stored, and the database has none
    show Stored.unit? s.store db name = (s.resource.units.get? name).map _
    rw [hnone name, Stored.unit?, if_neg]
    · rfl
    · intro hlisted
      have hnode := (Stored.mem_children_storageUnits.1 hlisted).2
      rw [Repository.query_of_nodes_eq_empty hempty] at hnode
      cases hnode

/-- How an operation ends: calm, unless a number overflowed. -/
def EndsCalm {α : Type} (db : String) : Except Failure α → Scene → Prop
  | .error .overflow, _ => True
  | _, s => s.Calm db

theorem Calm.endsCalm {α : Type} (h : s.Calm db) (result : Except Failure α) :
    EndsCalm db result s := by
  rcases result with (_ | _) | _
  · exact h
  · trivial
  · exact h

theorem EndsCalm.calm {α : Type} {result : Except Failure α} (h : EndsCalm db result s)
    (hresult : result ≠ .error .overflow) : s.Calm db := by
  rcases result with (_ | _) | _
  · exact h
  · exact absurd rfl hresult
  · exact h

end Scene

/-- The terms of a node whose repository refuses nothing: whenever a pool is opened, the database is
calm. -/
abbrev calmTerms (db : String) : Terms clusterInterface Scene :=
  sceneTermsOf Repository.sure (Scene.Calm db) db

/-! ### One change -/

namespace UnitChange

variable {db : String} {change : UnitChange} {s : Scene} {d : Database}

theorem smooth_persistStatistics (before reload : Generation) :
    Access.Smooth db (persistStatistics db before reload) := by
  unfold persistStatistics
  cases reload.statistics.get? db with
  | none => exact .pure ()
  | some statistics => exact .forM fun e _ => Stored.smooth_persistStatistics _ e.2

/-- **Writing a change** goes well, if everything has a name. -/
theorem smooth_persist (hdb : Path.IsName db)
    (hnames : ∀ name u, change.sets name = some u → Path.IsName name) {before reload : Generation}
    (hbefore : (before.schemas db).HaveNames) (hreload : reload.database db = .ok d)
    (hschemas : d.schemas.HaveNames) : Access.Smooth db (change.persist db before reload) := by
  have hreloaded : (reload.schemas db).HaveNames := by
    rw [Generation.schemas_of_database hreload]
    exact hschemas
  have haltered : Access.Smooth db (afterAlteration db before reload) := by
    refine (smooth_persistStatistics before reload).seq fun _ => ?_
    exact Stored.smooth_persistReloadAltered hdb hreloaded hbefore
  have hpresent : ∀ units : SortedMap PoolProperties,
      (∀ name, change.sets name = (units.get? name).map (.present name)) →
      Access.Smooth db (Stored.persistUnits db units >>= fun switches => Item.commit switches >>=
        fun _ => afterAlteration db before reload) := by
    intro units hsets
    rw [← bind_assoc]
    have hunits : ∀ name, units.contains name = true → Path.IsName name := fun _ h =>
      isName_of_contains hsets hnames h
    exact (Stored.smooth_replaceUnits hunits).seq fun _ => haltered
  cases change with
  | register units => exact hpresent units fun _ => rfl
  | alter units => exact hpresent units fun _ => rfl
  | unregister unit =>
    have hunit : Path.IsName unit := hnames unit .absent (if_pos rfl)
    refine (Access.Smooth.delete (.unit hunit)).seq fun _ => ?_
    -- after the unit, all schemas of the database are written, and what a reload would drop goes
    show Access.Smooth db (Plan.ofExcept (reload.database db) >>= fun database =>
      database.schemas.values.forM (Stored.alterSchemaTables db) >>= fun _ =>
        persistStatistics db before reload >>= fun _ =>
          Stored.persistReloadDropped db (reload.schemas db) (before.schemas db))
    rw [hreload]
    refine (Access.Smooth.forM fun x hx => ?_).seq fun _ =>
      (smooth_persistStatistics before reload).seq fun _ =>
        Stored.smooth_persistReloadDropped hdb hreloaded hbefore
    obtain ⟨e, he, rfl⟩ := List.mem_map.1 hx
    exact Stored.smooth_alterSchemaTables hdb (hschemas.mem_entries e he).2

/-- What a change sets is stored in the written form of what is live. -/
theorem stored_of_sets {name : String} {u : UnitState} (h : change.sets name = some u) :
    u.stored = u.live.map fun u => .ok (some (Codec.write u.properties)) := by
  -- whatever is put in is stored as the text of what is live
  have hpresent : ∀ units : SortedMap PoolProperties,
      (units.get? name).map (UnitState.present name) = some u →
      u.stored = u.live.map fun u => .ok (some (Codec.write u.properties)) := by
    intro units h
    obtain ⟨properties, -, rfl⟩ := Option.map_eq_some_iff.1 h
    rfl
  cases change with
  | register units => exact hpresent units h
  | alter units => exact hpresent units h
  | unregister unit =>
    rw [sets_unregister] at h
    split at h
    · obtain rfl := Option.some.inj h
      rfl
    · cases h

/-- **Applying a change** leaves the database calm. -/
theorem keeps_apply_calm (hdb : Path.IsName db) {before : Generation} {diff : ResourceDiff}
    (hnames : ∀ name u, change.sets name = some u → Path.IsName name) (h : s.Calm db)
    (hbefore : before.databases.get? db = some d) (hdatabase : s.database = some d)
    (hyields : Yields d.resource change diff) :
    (change.apply db before diff).Keeps (calmTerms db) (Scene.EndsCalm db) s := by
  obtain ⟨hname, hnamed⟩ := h.named d hdatabase
  have hschemas : d.schemas.HaveNames := h.schemas d hdatabase
  have hcurrent : (before.schemas db).HaveNames := by
    unfold Generation.schemas
    rw [hbefore]
    exact hschemas
  refine keeps_apply_of_persist hbefore hname (fun f => h.endsCalm _) fun reload hreload => ?_
  -- writing the change can only fail for want of a number
  have hsmooth : Access.Smooth db (change.persist db before reload) :=
    smooth_persist hdb hnames hcurrent hreload hschemas
  have hwritten : (change.persist db before reload).Keeps Repository.sure (fun result s' => ∀ name,
      change.Writes name result (Stored.unit? s.store db name) (Stored.unit? s' db name)) s.store :=
    Access.keeps_of_unsure (keeps_persist hnames before reload s.store)
  refine ((hsmooth s.store h.inOrder).and hwritten).mono fun result store hstore => ⟨?_, ?_⟩
  · rintro f rfl
    obtain rfl : f = .overflow := hstore.1.2 f rfl
    trivial
  · rintro rfl
    obtain ⟨⟨hinOrder, -⟩, hwrites⟩ := hstore
    have hends := Ends.of_installed hdatabase hname hnamed hyields hwrites
    refine ⟨trivial, hends.named, fun name => ?_, hinOrder, fun d' hd' => ?_⟩
    · -- a unit is as the change sets it, or as it was
      have hunit : Scene.unit db _ name = (change.sets name).getD (s.unit db name) := hends.units name
      rw [hunit]
      cases hset : change.sets name with
      | none => exact h.units name
      | some u => exact stored_of_sets hset
    · obtain rfl := Option.some.inj hd'
      exact hschemas

end UnitChange

/-- **A change of storage units** leaves the database calm. -/
theorem Service.keeps_switchUnits_calm {db : String} {s : Scene} {change : UnitChange}
    (service : Service) (hdb : Path.IsName db)
    (hnames : ∀ name u, change.sets name = some u → Path.IsName name) (h : s.Calm db) :
    (service.switchUnits db change).Keeps (calmTerms db) (Scene.EndsCalm db) s := by
  refine service.keeps_switchUnits_of_apply (fun _ _ => trivial) h (fun result s' hs' hresult => ?_)
    (fun f => h.endsCalm _) fun before d diff hbefore hdatabase hyields => ?_
  · exact hs'.calm hresult
  · exact UnitChange.keeps_apply_calm hdb hnames h hbefore hdatabase hyields

namespace UnitOperation

variable {db : String} {s : Scene}

/-- The names of the units that an operation puts in. -/
def puts : UnitOperation → List String
  | register units | alter units => units.keys
  | unregister _ => []

/-- **An operation on storage units** leaves the database calm, whether it succeeds or not. It may be
told to remove units that are not there. -/
theorem keeps_run_calm (service : Service) (op : UnitOperation) (hdb : Path.IsName db)
    (hnames : ∀ name ∈ op.puts, Path.IsName name) (h : s.Calm db) :
    (op.run service db).Keeps (calmTerms db) (Scene.EndsCalm db) s := by
  cases op with
  | register units =>
    refine service.keeps_switchUnits_calm hdb (fun name u hu => ?_) h
    exact hnames name (UnitChange.mem_keys_of_present hu)
  | alter units =>
    refine service.keeps_switchUnits_calm hdb (fun name u hu => ?_) h
    exact hnames name (UnitChange.mem_keys_of_present hu)
  | unregister names =>
    show (service.unregisterUnits db names).Keeps _ _ _
    unfold Service.unregisterUnits
    rw [keeps_bind, Scene.keeps_access]
    refine Stored.reads_loadUnits s.store db _ _ (fun _ he => he.elim) ?_
    -- what the loop reads from the store is what is live, since the two agree
    have hstored : Stored.unitsIn s.store db = .ok s.resource.properties := by
      rw [← Scene.storedUnits_eq]
      exact h.agrees.stored
    rw [hstored]
    show (names.forM fun unit => if s.resource.properties.contains unit then
      service.switchUnits db (.unregister unit) else pure ()).Keeps _ _ _
    refine Keeps.forM (fun _ s' => s'.Calm db) h (fun unit rest s' hs' => ?_) fun s' hs' => hs'
    split
    · -- what is removed was stored when the loop began, so it has a name
      rename_i hcontains
      have hunit : Path.IsName unit := h.isName hcontains
      refine (service.keeps_switchUnits_calm hdb
        (fun _ _ hu => UnitChange.isName_of_unregister hunit hu) hs').mono fun result s'' hs'' => ?_
      rcases result with (_ | _) | _ <;> exact hs''
    · -- a unit that is not stored is passed over
      exact hs'

end UnitOperation

/-! ### Runs of one database -/

/-- The names of the units that a move puts in, once its operation succeeds. -/
def PoolMove.puts : PoolMove → List String
  | start _ op => op.puts
  | next .. => []

namespace NodeRun

variable {db : String} {s : NodeRun} (service : Service)

/-- **A run is calm** for a database: the database is, or the operation that is going on leaves it so. -/
structure CalmAt (db : String) (s : NodeRun) : Prop where
  reliable : s.stage.faults = []
  idle : s.changes.get? db = none → (s.stage.scene db).Calm db
  busy : ∀ rest, s.changes.get? db = some rest →
    rest.Keeps (calmTerms db) (Scene.EndsCalm db) (s.stage.scene db)

/-- The operation of the database is put back. -/
theorem CalmAt.put {rest : Cluster Unit} (hreliable : s.stage.faults = [])
    (hrest : rest.Keeps (calmTerms db) (Scene.EndsCalm db) (s.stage.scene db))
    (hoverflow : .error .overflow ∉ (s.put db rest).resultsOf db) : (s.put db rest).CalmAt db := by
  have herased : (s.changes.erase db).get? db = none := by
    rw [SortedMap.get?_erase, if_pos rfl]
  cases rest with
  -- an operation that has ended has left the database calm, unless a number overflowed
  | done a => exact ⟨hreliable, fun _ => hrest, fun _ h => by cases herased.symm.trans h⟩
  | stop f =>
    cases f with
    | error e => exact ⟨hreliable, fun _ => hrest, fun _ h => by cases herased.symm.trans h⟩
    | overflow =>
      refine absurd ?_ hoverflow
      rw [resultsOf_append_self (s := s.put db (.stop .overflow)) rfl]
      exact List.mem_append_right _ (List.mem_singleton_self _)
  | ask r k =>
    have hinserted : (s.changes.insert db (.ask r k)).get? db = some (.ask r k) :=
      SortedMap.get?_insert_self ..
    refine ⟨hreliable, fun h => ?_, fun rest h => ?_⟩
    · cases hinserted.symm.trans h
    · obtain rfl := Option.some.inj (hinserted.symm.trans h)
      exact hrest

/-- **A move of the database** keeps the run calm. -/
theorem CalmAt.step (h : s.CalmAt db) (hdb : Path.IsName db) {move : PoolMove} (hmove : move.db = db)
    (hputs : ∀ name ∈ move.puts, Path.IsName name)
    (hoverflow : .error .overflow ∉ (s.step service move).resultsOf db) :
    (s.step service move).CalmAt db := by
  subst hmove
  cases move with
  | start db op =>
    unfold NodeRun.step at hoverflow ⊢
    dsimp only [PoolMove.db] at *
    split
    · exact h
    · rename_i hbusy
      rw [if_neg hbusy] at hoverflow
      have hidle : s.changes.get? db = none := by
        simpa [SortedMap.contains] using hbusy
      refine .put h.reliable ?_ hoverflow
      exact op.keeps_run_calm service hdb hputs (h.idle hidle)
  | next db failure =>
    unfold NodeRun.step at hoverflow ⊢
    dsimp only [PoolMove.db] at *
    split
    · rename_i r k hrest
      rw [hrest] at hoverflow
      obtain ⟨howed, hnext⟩ := h.busy _ hrest
      -- the repository answers as it does where nothing is refused
      have hcall : ∀ call, Repository.sure.Answers call s.stage.repository
          (Stage.answerStore call s.stage).1 (Stage.answerStore call s.stage).2.repository := by
        intro call
        have hanswer := s.stage.answerStore_of_faults_eq_nil h.reliable call
        rw [hanswer]
        exact Repository.terms_answers call s.stage.repository
      have hreply := s.stage.answerReliably_scene db failure r hcall howed
      exact .put (s := s.answered failure r)
        ((s.stage.advances_answerReliably failure r).faults h.reliable) (hnext _ _ hreply) hoverflow
    · exact h

/-- What has ended stays so. -/
theorem resultsOf_subset_after (s : NodeRun) (moves : List PoolMove) :
    s.resultsOf db ⊆ (s.after service moves).resultsOf db := by
  intro result hresult
  obtain ⟨r, hr, rfl⟩ := List.mem_map.1 hresult
  obtain ⟨hmem, hself⟩ := List.mem_filter.1 hr
  exact List.mem_map_of_mem (List.mem_filter.2 ⟨(results_after service s moves).subset hmem, hself⟩)

/-- A database that is calm stays so under its own operations. -/
theorem CalmAt.after (h : s.CalmAt db) (hdb : Path.IsName db) {moves : List PoolMove}
    (hmoves : ∀ move ∈ moves, move.db = db)
    (hputs : ∀ move ∈ moves, ∀ name ∈ move.puts, Path.IsName name)
    (hoverflow : .error .overflow ∉ (s.after service moves).resultsOf db) :
    (s.after service moves).CalmAt db := by
  induction moves generalizing s with
  | nil => exact h
  | cons move moves ih =>
    rw [List.forall_mem_cons] at hmoves hputs
    have hstep : (s.step service move).CalmAt db := by
      refine h.step service hdb hmoves.1 hputs.1 fun hmem => hoverflow ?_
      exact resultsOf_subset_after service _ moves hmem
    exact ih hstep hmoves.2 hputs.2 hoverflow

/-! ### Runs of all databases -/

/-- **A database is settled**: no operation on it is going on, except for one that is waiting for a
pool. -/
def Settled (s : NodeRun) (db : String) : Prop :=
  ∀ rest, s.changes.get? db = some rest →
    ∃ unit properties k, rest = .ask (.openPool unit properties) k

/-- A settled database is calm, if it looks as it does in a calm run. -/
theorem CalmAt.calm_of_settled {P : PoolId → PoolId → Prop} {s' : NodeRun} (h : s'.CalmAt db)
    (hmatching : s.Matching P db s') (hsettled : s.Settled db) : (s'.stage.scene db).Calm db := by
  have hchange := hmatching.change
  unfold Settled at hsettled
  generalize hrest : s'.changes.get? db = rest' at hchange
  generalize s.changes.get? db = rest at hchange hsettled
  cases hchange with
  | none => exact h.idle hrest
  | some hstep =>
    obtain ⟨unit, properties, k, rfl⟩ := hsettled _ rfl
    obtain _ | _ | ⟨hrequest, -, -⟩ := hstep
    cases hrequest
    exact (h.busy _ hrest).1

/-- **Matching runs have the same units**, in the repository and in the generation. -/
theorem Matching.sameUnits {P : PoolId → PoolId → Prop} {s' : NodeRun} (h : s.Matching P db s') :
    (s.stage.scene db).storedUnits db = (s'.stage.scene db).storedUnits db
      ∧ (s.stage.scene db).resource.properties = (s'.stage.scene db).resource.properties := by
  constructor
  · exact (Access.run_of_sameAt (Access.uses_mono (Stored.uses_loadUnits db)
      (Path.database_covers_storageUnits db)) h.stage.metadata).1
  · have hdatabase := h.stage.generation.database
    unfold Stage.scene Scene.resource
    generalize s.stage.generation.databases.get? db = d, s'.stage.generation.databases.get? db = d'
      at hdatabase ⊢
    -- both runs have the database or neither has, and its units are the same
    cases hdatabase with
    | none => rfl
    | @some d d' hd =>
      show d.resource.properties = d'.resource.properties
      rw [Resource.properties, Resource.properties, hd.resource.units]

/-- **Store and generation agree on the storage units.** The repository is empty at first, and the
databases have no units. Then in every run in which the repository refuses nothing and no number
overflows, what is loaded of the units of a settled database are the properties of its units in the
current generation. Pools may fail to open and generations to be built, so operations may fail; and
units may be unregistered that are not there. -/
theorem agrees_after (service : Service) {stage : Stage} (hfaults : stage.faults = [])
    (hempty : stage.repository.nodes = ∅)
    (hstart : ∀ db d, stage.generation.databases.get? db = some d →
      d.name = db ∧ d.resource.units = ∅ ∧ d.schemas.HaveNames)
    (moves : List PoolMove) (hnames : ∀ move ∈ moves, Path.IsName move.db)
    (hputs : ∀ move ∈ moves, ∀ name ∈ move.puts, Path.IsName name)
    (hoverflow : ∀ r ∈ ((ofStage stage).after service moves).results, r.2 ≠ .error .overflow) :
    let run := (ofStage stage).after service moves
    ∀ db, Path.IsName db → run.Settled db →
      (run.stage.scene db).storedUnits db = .ok (run.stage.scene db).resource.properties := by
  intro run db hdb hsettled
  let alone : NodeRun := (ofStage stage).after service (movesOf db moves)
  -- nothing is to be said about pools here, so any two of them may stand for each other
  have hmatching : run.Matching (fun _ _ => True) db alone := by
    have hself : ∀ db, Path.IsName db →
        (ofStage stage).Matching (fun _ _ => True) db (ofStage stage) := fun db _ =>
      .ofStage hfaults (fun d hd => (hstart db d hd).1) fun _ _ => trivial
    exact matching_after service hself moves hnames (fun _ _ _ _ _ => trivial) hoverflow db hdb
  -- alone, the database starts calm, and its own moves keep it so
  have hcalm : alone.CalmAt db := by
    have hfirst : (stage.scene db).Calm db :=
      .of_empty hempty (fun d hd => ⟨(hstart db d hd).1, (hstart db d hd).2.1⟩)
        fun d hd => (hstart db d hd).2.2
    refine CalmAt.after service (s := ofStage stage) ⟨hfaults, fun _ => hfirst, fun _ h => by cases h⟩
      hdb (fun move hmove => ?_) (fun move hmove => ?_) ?_
    · exact eq_of_beq (List.mem_filter.1 hmove).2
    · exact hputs move (List.mem_filter.1 hmove).1
    · intro hmem
      rw [← hmatching.results] at hmem
      obtain ⟨r, hr, hresult⟩ := List.mem_map.1 hmem
      exact hoverflow r (List.mem_filter.1 hr).1 hresult
  obtain ⟨hstored, hlive⟩ := hmatching.sameUnits
  rw [hstored, hlive]
  exact (hcalm.calm_of_settled hmatching hsettled).agrees.stored

/-- Two units are registered, a third one has no pool, and one is removed together with one that is not
there, while an operation on another database waits for its pool. -/
theorem agrees_after_with_failures :
    let service : Service := ⟨0, ⟨1, 1⟩, fun _ _ => .done ()⟩
    let properties (url : String) : PoolProperties := ⟨url, "user", "", ∅⟩
    let stage : Stage :=
      { repository := .memory .empty
        generation := { databases := Generation.databasesOf [.empty "a", .empty "b"] }
        refusals := [("down", "refused")] }
    let operation (op : UnitOperation) : List PoolMove :=
      .start "a" op :: List.replicate 15 (.next "a" none)
    let moves := [.start "b" (.alter (.ofList [("y", properties "url")])), .next "b" none]
      ++ operation (.register (.ofList [("x", properties "url"), ("y", properties "url")]))
      ++ operation (.alter (.ofList [("z", properties "down")])) ++ operation (.unregister ["x", "nope", "x"])
    let run := (ofStage stage).after service moves
    run.resultsOf "a" = [.ok (), .error (.error (.unitNotOpened "z" "refused")), .ok ()]
      ∧ run.changes.contains "b" = true
      ∧ (run.stage.scene "a").storedUnits "a" = .ok (.ofList [("y", properties "url")]) := by
  intro service properties stage operation moves run
  have hrun : let run := (ofStage stage).after service moves
      (∀ r ∈ run.results, r.2 ≠ .error .overflow)
      ∧ run.resultsOf "a" = [.ok (), .error (.error (.unitNotOpened "z" "refused")), .ok ()]
      ∧ run.changes.contains "a" = false ∧ run.changes.contains "b" = true
      ∧ (run.stage.scene "a").resource.properties = .ofList [("y", properties "url")] := by
    decide +kernel
  -- the run is never evaluated again from here on
  obtain ⟨hoverflow, hresults, hidle, hbusy, hlive⟩ := hrun
  have hnames : ∀ move ∈ moves, Path.IsName move.db := by decide +kernel
  have hputs : ∀ move ∈ moves, ∀ name ∈ move.puts, Path.IsName name := by decide +kernel
  have hstart : ∀ db d, stage.generation.databases.get? db = some d →
      d.name = db ∧ d.resource.units = ∅ ∧ d.schemas.HaveNames := by
    intro db d hd
    obtain ⟨d', hmem, heq⟩ := List.mem_map.1 (SortedMap.mem_of_get?_ofList hd)
    obtain ⟨rfl, rfl⟩ := Prod.mk.inj heq
    have hempty : d' = .empty d'.name := by
      rcases List.mem_pair.1 hmem with rfl | rfl <;> rfl
    rw [hempty]
    exact ⟨rfl, rfl, fun _ _ h => by cases h⟩
  have hfaults : stage.faults = [] := rfl
  have hempty : stage.repository.nodes = ∅ := rfl
  have hafter : (ofStage stage).after service moves = run := rfl
  clear_value run stage
  subst hafter
  have hsettled : ((ofStage stage).after service moves).Settled "a" := by
    intro rest hrest
    rw [SortedMap.contains, hrest] at hidle
    cases hidle
  have hagrees := agrees_after service hfaults hempty hstart moves hnames hputs hoverflow
  exact ⟨hresults, hbusy, (hagrees "a" (by decide) hsettled).trans (congrArg Except.ok hlive)⟩

end NodeRun

end ClusterCatalog
