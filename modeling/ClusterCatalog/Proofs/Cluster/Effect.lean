import ClusterCatalog.Proofs.Cluster.Exchange
import ClusterCatalog.Proofs.Simulation.Stage
import ClusterCatalog.Proofs.Store.Units

/-!
# What a change does to the units

There are three sides to a storage unit: what the repository stores of it, the unit in the current
generation, and whether that generation has a pool for it. `UnitState` holds the three. A change sets
the state of its own units (`UnitChange.sets`) and leaves all others alone. It writes the repository
first and installs the database at the end, so a change that fails in between has reached the first
side only.

* `Scene` — what a change reads and writes of the node, with `sceneTerms` for its requests.
* `UnitChange.Outcome` — the state of a unit after a change, successful or not.
* `Service.keeps_switchUnits_ends` — every unit gets its outcome, whatever fails.
-/

namespace ClusterCatalog

open Plan

/-! ### The state of a unit -/

/-- **The three sides of a storage unit.** -/
structure UnitState where
  /-- What is stored of it. -/
  stored : Option (Except Failure (Option String))
  /-- The unit in the current generation. -/
  live : Option StorageUnit
  /-- Whether the current generation has a pool for it. -/
  pooled : Bool

namespace UnitState

/-- A unit that is nowhere. -/
def absent : UnitState := ⟨none, none, false⟩

/-- A unit with the given properties. -/
def present (name : String) (properties : PoolProperties) : UnitState :=
  ⟨some (.ok (some (Codec.write properties))), some ⟨name, properties⟩, true⟩

/-- Whether a unit is loaded from the repository. -/
def IsStored (u : UnitState) : Prop := ∃ text, u.stored = some (.ok (some text))

end UnitState

namespace UnitChange

/-- **What a change makes of a unit**, if it has to do with it. -/
def sets : UnitChange → String → Option UnitState
  | register units, name | alter units, name => (units.get? name).map (.present name)
  | unregister unit, name => if name = unit then some .absent else none

variable {units : SortedMap PoolProperties} {unit name : String}

@[simp] theorem sets_register :
    (register units).sets name = (units.get? name).map (.present name) := rfl

@[simp] theorem sets_alter :
    (alter units).sets name = (units.get? name).map (.present name) := rfl

@[simp] theorem sets_unregister :
    (unregister unit).sets name = if name = unit then some .absent else none := rfl

/-! The names of the units that a change sets. -/

theorem mem_keys_of_present {u : UnitState}
    (h : (units.get? name).map (UnitState.present name) = some u) : name ∈ units.keys := by
  obtain ⟨properties, hget, -⟩ := Option.map_eq_some_iff.1 h
  exact (SortedMap.mem_keys_iff units).2 (SortedMap.contains_iff.2 ⟨properties, hget⟩)

theorem isName_of_contains {change : UnitChange}
    (hsets : ∀ name, change.sets name = (units.get? name).map (.present name))
    (hnames : ∀ name u, change.sets name = some u → Path.IsName name)
    (h : units.contains name = true) : Path.IsName name := by
  obtain ⟨properties, hget⟩ := SortedMap.contains_iff.1 h
  refine hnames name (.present name properties) ?_
  rw [hsets name, hget]
  rfl

theorem isName_of_unregister (hunit : Path.IsName unit) {u : UnitState}
    (h : (unregister unit).sets name = some u) : Path.IsName name := by
  rw [sets_unregister] at h
  split at h
  · rename_i heq
    exact heq ▸ hunit
  · cases h

end UnitChange

/-! ### The changed resource -/

namespace ResourceDiff

variable {d : ResourceDiff} {r : Resource} {units : SortedMap PoolProperties} {name : String}

theorem get?_units_applyTo (d : ResourceDiff) (r : Resource) (name : String) :
    (d.applyTo r).units.get? name = (d.merged.get? name).map (StorageUnit.mk name) :=
  SortedMap.get?_map _ _ _

theorem get?_properties (hnamed : r.SelfNamed) (name : String) :
    (r.properties.get? name).map (StorageUnit.mk name) = r.units.get? name := by
  rw [Resource.properties, SortedMap.get?_map]
  cases hunit : r.units.get? name with
  | none => rfl
  | some u =>
    obtain rfl := hnamed name u hunit
    rfl

theorem get?_pools_applyTo (d : ResourceDiff) (r : Resource) (node : String) :
    (d.applyTo r).pools.get? node
      = (d.opened.get? node).or (if d.stale.contains node then none else r.pools.get? node) := by
  show ((r.pools.filter fun node _ => !d.stale.contains node).overlay d.opened).get? node = _
  rw [SortedMap.get?_overlay, SortedMap.get?_filter]
  cases d.stale.contains node <;> cases r.pools.get? node <;> rfl

theorem poolOf?_eq (hnamed : r.SelfNamed) (name : String) :
    r.poolOf? name = (r.units.get? name).bind fun _ => r.pools.get? name := by
  unfold Resource.poolOf?
  cases hunit : r.units.get? name with
  | none => rfl
  | some u =>
    obtain rfl := hnamed name u hunit
    rfl

theorem selfNamed_applyTo (d : ResourceDiff) (r : Resource) : (d.applyTo r).SelfNamed :=
  Resource.selfNamed_unitsOf _ _

/-- The pools that a diff takes out are pools of the units that it names. -/
theorem mem_of_poolsOf_contains (hnamed : r.SelfNamed) {names : List String} {node : String}
    (h : (poolsOf r names).contains node = true) : node ∈ names := by
  obtain ⟨pool, hpool⟩ := SortedMap.contains_iff.1 h
  obtain ⟨-, name, hname, u, hu, rfl⟩ := mem_poolsOf hpool
  rw [hnamed name u hu]
  exact hname

/-- Removing a unit takes its properties out, whether it is there or not. -/
theorem get?_merged_unregister (r : Resource) (unit name : String) :
    (unregister r [unit]).merged.get? name
      = if name = unit then none else r.properties.get? name := by
  show (r.properties.filter fun name _ => !(present r [unit]).contains name).get? name = _
  rw [SortedMap.get?_filter]
  cases hproperties : r.properties.get? name with
  | none => split <;> rfl
  | some properties =>
    have hlive : r.units.contains name = true := by
      rw [← properties_contains, SortedMap.contains, hproperties]
      rfl
    have hmem : name ∈ present r [unit] ↔ name = unit := by
      rw [mem_present_iff, List.mem_singleton]
      exact and_iff_right hlive
    by_cases hname : name = unit
    -- the unit is live, so it is among those that are to go
    · have hin := hmem.2 hname
      rw [if_pos hname]
      simp [hin, Option.filter]
    · have hout := mt hmem.1 hname
      rw [if_neg hname]
      simp [hout, Option.filter]

/-- A unit that a diff has nothing to do with stays as it is. -/
theorem unit_applyTo_of_same (hnamed : r.SelfNamed)
    (hmerged : d.merged.get? name = r.properties.get? name)
    (hopened : d.opened.contains name = false) (hstale : d.stale.contains name = false) :
    (d.applyTo r).units.get? name = r.units.get? name
      ∧ (d.applyTo r).poolOf? name = r.poolOf? name := by
  have hunits : (d.applyTo r).units.get? name = r.units.get? name := by
    rw [get?_units_applyTo, hmerged, get?_properties hnamed]
  -- the pool was not opened again, and is not stale, so it is the old one
  have hnone : d.opened.get? name = none := by simpa [SortedMap.contains] using hopened
  refine ⟨hunits, ?_⟩
  rw [poolOf?_eq (selfNamed_applyTo d r), hunits, poolOf?_eq hnamed, get?_pools_applyTo, hnone, hstale]
  rfl

/-- A unit that is put in with a pool is there with these properties. -/
theorem unit_applyTo_of_opened {properties : PoolProperties}
    (hmerged : d.merged.get? name = some properties) (hopened : d.opened.contains name = true) :
    (d.applyTo r).units.get? name = some ⟨name, properties⟩
      ∧ ((d.applyTo r).poolOf? name).isSome = true := by
  have hunits : (d.applyTo r).units.get? name = some ⟨name, properties⟩ := by
    rw [get?_units_applyTo, hmerged]
    rfl
  -- what was opened comes before what was there
  obtain ⟨pool, hpool⟩ := SortedMap.contains_iff.1 hopened
  refine ⟨hunits, ?_⟩
  rw [poolOf?_eq (selfNamed_applyTo d r), hunits, Option.bind_some, get?_pools_applyTo, hpool]
  rfl

/-- A unit that is taken out is gone. -/
theorem unit_applyTo_of_none (hmerged : d.merged.get? name = none) :
    (d.applyTo r).units.get? name = none ∧ (d.applyTo r).poolOf? name = none := by
  have hunits : (d.applyTo r).units.get? name = none := by
    rw [get?_units_applyTo, hmerged]
    rfl
  refine ⟨hunits, ?_⟩
  rw [poolOf?_eq (selfNamed_applyTo d r), hunits]
  rfl

/-- Units that are put in, each with a pool, while only their pools are taken out. -/
theorem unit_applyTo_of_overlay (hnamed : r.SelfNamed)
    (hmerged : d.merged = r.properties.overlay units)
    (hopened : ∀ node, d.opened.contains node = units.contains node)
    (hstale : ∀ node, d.stale.contains node = true → units.contains node = true) (name : String) :
    (d.applyTo r).units.get? name
        = ((units.get? name).map fun p => some ⟨name, p⟩).getD (r.units.get? name)
      ∧ ((d.applyTo r).poolOf? name).isSome
        = ((units.get? name).map fun _ => true).getD (r.poolOf? name).isSome := by
  cases hunit : units.get? name with
  | some properties =>
    refine unit_applyTo_of_opened ?_ ?_
    · rw [hmerged, SortedMap.get?_overlay, hunit]
      rfl
    · rw [hopened, SortedMap.contains, hunit]
      rfl
  | none =>
    -- no pool is opened for this unit, and none of its pools is stale
    have hnot : units.contains name = false := by rw [SortedMap.contains, hunit]; rfl
    have hmerged : d.merged.get? name = r.properties.get? name := by
      rw [hmerged, SortedMap.get?_overlay, hunit]
      rfl
    have hstale : d.stale.contains name = false := by
      rw [Bool.eq_false_iff]
      intro h
      rw [hstale name h] at hnot
      cases hnot
    obtain ⟨hunits, hpool⟩ := unit_applyTo_of_same hnamed hmerged ((hopened name).trans hnot) hstale
    exact ⟨hunits, congrArg Option.isSome hpool⟩

end ResourceDiff

namespace UnitChange

variable {r : Resource} {change : UnitChange} {diff : ResourceDiff}

/-- **The changed resource** has the units and pools that the change sets, and all others. -/
theorem Yields.unit_applyTo (h : Yields r change diff) (hnamed : r.SelfNamed) (name : String) :
    (diff.applyTo r).units.get? name = ((change.sets name).map (·.live)).getD (r.units.get? name)
      ∧ ((diff.applyTo r).poolOf? name).isSome
        = ((change.sets name).map (·.pooled)).getD (r.poolOf? name).isSome := by
  cases h with
  | @register units opened hnew hopened =>
    have h := ResourceDiff.unit_applyTo_of_overlay (d := .register r units opened) hnamed rfl hopened
      (fun _ h => by cases h) name
    rw [sets_register, Option.map_map, Option.map_map]
    exact h
  | @alter units opened hopened =>
    have h := ResourceDiff.unit_applyTo_of_overlay (d := .alter r units opened) hnamed rfl hopened
      (fun _ h => (SortedMap.mem_keys_iff units).1 (ResourceDiff.mem_of_poolsOf_contains hnamed h)) name
    rw [sets_alter, Option.map_map, Option.map_map]
    exact h
  | unregister unit =>
    have hmerged := ResourceDiff.get?_merged_unregister r unit name
    by_cases hname : name = unit
    · rw [if_pos hname] at hmerged
      obtain ⟨hunits, hpool⟩ := ResourceDiff.unit_applyTo_of_none (r := r) hmerged
      rw [sets_unregister, if_pos hname]
      exact ⟨hunits, congrArg Option.isSome hpool⟩
    · rw [if_neg hname] at hmerged
      -- a stale pool would be that of `unit`
      have hstale : (ResourceDiff.unregister r [unit]).stale.contains name = false := by
        rw [Bool.eq_false_iff]
        intro h
        have hmem := ResourceDiff.mem_of_poolsOf_contains hnamed h
        exact hname (List.mem_singleton.1 (ResourceDiff.mem_present_iff.1 hmem).2)
      obtain ⟨hunits, hpool⟩ := ResourceDiff.unit_applyTo_of_same hnamed hmerged rfl hstale
      rw [sets_unregister, if_neg hname]
      exact ⟨hunits, congrArg Option.isSome hpool⟩

end UnitChange

/-! ### What is written -/

namespace UnitChange

variable {db name : String} {change : UnitChange}

/-- What may be stored of a unit after a change that has failed: what was stored before or, if the
change has to do with the unit, something else. Nothing else is left of a unit that was to go. -/
def Leaves (change : UnitChange) (name : String)
    (old new : Option (Except Failure (Option String))) : Prop :=
  new = old ∨ ∃ u, change.sets name = some u ∧ (u.stored = none → new = none)

/-- What is written after a change of units: schemas of the database, or its statistics. -/
def Follows (db : String) (r : StoreRequest) : Prop :=
  r.Concerns (Path.schemas db) ∨ r.Concerns (Path.child Path.statisticsRoot db)

theorem uses_persistStatistics (db : String) (before reload : Generation) :
    (persistStatistics db before reload).Uses
      (StoreRequest.Concerns (Path.child Path.statisticsRoot db)) := by
  unfold persistStatistics
  cases reload.statistics.get? db with
  | none => trivial
  | some statistics => exact Uses.forM fun e _ => Stored.uses_persistStatistics db e.1 _ e.2

theorem uses_afterAlteration (db : String) (before reload : Generation) :
    (afterAlteration db before reload).Uses (Follows db) := by
  unfold afterAlteration
  refine ((uses_persistStatistics db before reload).mono fun _ hr => .inr hr).seq fun _ => ?_
  exact (Stored.uses_persistReloadAltered db _ _).mono fun _ hr => .inl hr

theorem uses_afterRemoval (db : String) (before reload : Generation) :
    (afterRemoval db before reload).Uses (Follows db) := by
  unfold afterRemoval
  refine (uses_ofExcept _).seq fun database => ?_
  refine (Uses.forM fun schema _ => (Access.uses_mono (Stored.uses_alterSchemaTables db schema)
    (Stored.covers_schema db schema.name)).mono fun _ hr => .inl hr).seq fun _ => ?_
  refine ((uses_persistStatistics db before reload).mono fun _ hr => .inr hr).seq fun _ => ?_
  exact (Stored.uses_persistReloadDropped db _ _).mono fun _ hr => .inl hr

/-- Writing what follows from a change of units leaves the units alone. -/
theorem keeps_unit?_of_follows {p : Access Unit} (h : p.Uses (Follows db)) (s : Repository) :
    p.Keeps Repository.unsure
      (fun _ s' => ∀ name, Stored.unit? s' db name = Stored.unit? s db name) s :=
  Stored.keeps_unit?_of_uses
    (h.mono fun _ hr => hr.imp id fun hr => hr.mono (Path.isAbove_child _ _).covers) s

/-- How the stored state of a unit is written: `Leaves` in any case, and as it is set in the end. -/
def Writes (change : UnitChange) (name : String) (result : Except Failure Unit)
    (old new : Option (Except Failure (Option String))) : Prop :=
  change.Leaves name old new
    ∧ (result = .ok () → new = ((change.sets name).map (·.stored)).getD old)

/-- Writing new or other properties of units. -/
theorem keeps_persist_present {units : SortedMap PoolProperties}
    (hsets : ∀ name, change.sets name = (units.get? name).map (.present name))
    (hnames : ∀ name u, change.sets name = some u → Path.IsName name)
    (before reload : Generation) (s : Repository) :
    (Stored.persistUnits db units >>= fun switches => Item.commit switches >>= fun _ =>
      afterAlteration db before reload).Keeps Repository.unsure (fun result s' => ∀ name,
        change.Writes name result (Stored.unit? s db name) (Stored.unit? s' db name)) s := by
  have hunits : ∀ name, units.contains name = true → Path.IsName name := fun _ h =>
    isName_of_contains hsets hnames h
  -- what was not given is untouched; what was given has its new text if all went well
  have hwrites : ∀ {result : Except Failure Unit} {s' : Repository} {name : String},
      (units.get? name = none → Stored.unit? s' db name = Stored.unit? s db name)
        ∧ (∀ properties, units.get? name = some properties → result = .ok () →
          Stored.unit? s' db name = some (.ok (some (Codec.write properties)))) →
      change.Writes name result (Stored.unit? s db name) (Stored.unit? s' db name) := by
    rintro result s' name ⟨hnone, hsome⟩
    unfold Writes Leaves
    rw [hsets name]
    cases hget : units.get? name with
    | none => exact ⟨.inl (hnone hget), fun _ => hnone hget⟩
    | some properties =>
      exact ⟨.inr ⟨_, rfl, fun h => by cases h⟩, fun hresult => hsome properties hget hresult⟩
  rw [← bind_assoc]
  refine (Stored.keeps_replaceUnits hunits s).bind (fun _ s₁ h₁ => ?_) fun f s₁ h₁ name => ?_
  · -- all units are replaced; what follows may still fail, but leaves them alone
    refine (keeps_unit?_of_follows (uses_afterAlteration db before reload) s₁).mono fun result s' h name => ?_
    have hreplaced := hwrites (h₁ name)
    rw [h name]
    exact ⟨hreplaced.1, fun _ => hreplaced.2 rfl⟩
  · -- a unit was refused: those before it may have been written, and the rest have not
    exact hwrites ⟨(h₁ name).1, fun _ _ h => by cases h⟩

/-- **Writing a change**: its units are as it sets them if it succeeds, and other units are left alone
whether it succeeds or not. -/
theorem keeps_persist (hnames : ∀ name u, change.sets name = some u → Path.IsName name)
    (before reload : Generation) (s : Repository) :
    (change.persist db before reload).Keeps Repository.unsure (fun result s' => ∀ name,
      change.Writes name result (Stored.unit? s db name) (Stored.unit? s' db name)) s := by
  cases change with
  | register units => exact keeps_persist_present (fun _ => rfl) hnames before reload s
  | alter units => exact keeps_persist_present (fun _ => rfl) hnames before reload s
  | unregister unit =>
    have hunit : Path.IsName unit := hnames unit .absent (if_pos rfl)
    show (Stored.deleteUnit db unit >>= fun _ => afterRemoval db before reload).Keeps _ _ _
    rw [keeps_bind, Stored.deleteUnit, Access.keeps_delete]
    refine ⟨trivial, ?_, fun e _ name => ⟨.inl rfl, fun h => by cases h⟩⟩
    -- from here on the unit is gone from the store, even if the rest fails
    refine (keeps_unit?_of_follows (uses_afterRemoval db before reload) _).mono fun result s' h name => ?_
    rw [h name, Stored.unit?_delete hunit]
    by_cases hname : name = unit
    · rw [if_pos hname]
      refine ⟨.inr ⟨.absent, if_pos hname, fun _ => rfl⟩, fun _ => ?_⟩
      rw [sets_unregister, if_pos hname]
      rfl
    · rw [if_neg hname]
      refine ⟨.inl rfl, fun _ => ?_⟩
      rw [sets_unregister, if_neg hname]
      rfl

end UnitChange

/-! ### What a change sees of the node -/

/-- **The scene of a change**: the repository, and its database in the current generation. -/
structure Scene where
  store : Repository
  database : Option Database

namespace Scene

/-- The resource of the database. -/
def resource (s : Scene) : Resource := s.database.elim {} (·.resource)

/-- The state of a unit. -/
def unit (db : String) (s : Scene) (name : String) : UnitState where
  stored := Stored.unit? s.store db name
  live := s.resource.units.get? name
  pooled := (s.resource.poolOf? name).isSome

/-- The database and its units stand under their own names. -/
def Named (db : String) (s : Scene) : Prop :=
  ∀ d, s.database = some d → d.name = db ∧ d.resource.SelfNamed

end Scene

/-- The scene of a stage. -/
def Stage.scene (db : String) (s : Stage) : Scene := ⟨s.repository, s.generation.databases.get? db⟩

/-- **The terms of a scene**: nobody else touches the repository, whose terms are `T`, or the
database. Pools may fail to open and generations to be built; `opens` is owed when a pool is opened. -/
def sceneTermsOf (T : Terms storeInterface Repository) (opens : Scene → Prop) (db : String) :
    Terms clusterInterface Scene where
  Owed
    | .store call, s => T.Owed call s.store
    | .openPool .., s => opens s
    | .installDatabase d, _ => d.name = db
    | _, _ => True
  Answers
    | .store call, s, reply, s' => ∃ store, T.Answers call s.store reply store ∧ s' = { s with store }
    | .current, s, g, s' => g.databases.get? db = s.database ∧ s' = s
    | .build name isNew diff before, s, reply, s' =>
      (reply = diff.rebuild name isNew before ∨ ∃ e, reply = .error (.error e)) ∧ s' = s
    | .installDatabase d, s, .ok _, s' => s' = { s with database := some d }
    | .installDatabase _, s, .error f, s' => f = .overflow ∧ s' = s
    | _, s, _, s' => s' = s

/-- The terms of a scene in which any request can fail. -/
abbrev sceneTerms (db : String) : Terms clusterInterface Scene :=
  sceneTermsOf Repository.unsure (fun _ => True) db

/-- **A stage answers on these terms**, if its calls of the repository are answered on the terms of the
repository. -/
theorem Stage.answerReliably_scene {T : Terms storeInterface Repository} {opens : Scene → Prop}
    (db : String) (failure : Option Error) (r : ClusterRequest) (s : Stage)
    (hcall : ∀ call, T.Answers call s.repository (answerStore call s).1 (answerStore call s).2.repository)
    (howed : (sceneTermsOf T opens db).Owed r (s.scene db)) :
    (sceneTermsOf T opens db).Answers r (s.scene db) (s.answerReliably failure r).1
      ((s.answerReliably failure r).2.scene db) := by
  have hled := s.leadsTo_answerReliably failure r
  generalize s.answerReliably failure r = answered at hled ⊢
  -- only calls of the repository and installations change what is seen of the database
  cases hled with
  | answered call =>
    refine ⟨_, hcall call, ?_⟩
    show (⟨_, (answerStore call s).2.generation.databases.get? db⟩ : Scene) = _
    rw [(s.answerStore_frame call).1]
    rfl
  | refused call he => exact he.elim
  | current => exact ⟨rfl, rfl⟩
  | built name isNew diff before => exact ⟨.inl rfl, rfl⟩
  | notBuilt name isNew diff before e => exact ⟨.inr ⟨e, rfl⟩, rfl⟩
  | @installed d g hg =>
    obtain rfl : d.name = db := howed
    show (⟨_, g.databases.get? d.name⟩ : Scene) = ⟨_, some d⟩
    rw [Generation.databases_of_succeededBy hg, SortedMap.get?_insert_self]
    rfl
  | notInstalled d => exact ⟨rfl, rfl⟩
  | _ => rfl

theorem Stage.answer_scene (db : String) (r : ClusterRequest) (s : Stage)
    (howed : (sceneTerms db).Owed r (s.scene db)) :
    (sceneTerms db).Answers r (s.scene db) (Stage.answer r s).1 ((Stage.answer r s).2.scene db) := by
  rw [Stage.answer_eq_answerReliably]
  exact s.answerReliably_scene db none r s.answerStore_answers howed

namespace Scene

variable {α : Type} {T : Terms storeInterface Repository} {opens : Scene → Prop} {db : String}
  {s : Scene}

/-! ### One law for each request -/

/-- **An operation on the repository** changes the store of the scene only. -/
theorem keeps_access {post : Except Failure α → Scene → Prop} {p : Access α} :
    (Cluster.access p).Keeps (sceneTermsOf T opens db) post s
      ↔ p.Keeps T (fun r store => post r { s with store }) s.store := by
  unfold Cluster.access
  induction p generalizing s with
  | done a => exact Iff.rfl
  | stop f => exact Iff.rfl
  | ask r k ih =>
    refine and_congr_right fun _ => ⟨fun h reply store hreply => ?_, ?_⟩
    · exact (ih reply).1 (h reply { s with store } ⟨store, hreply, rfl⟩)
    · rintro h reply s' ⟨store, hreply, rfl⟩
      exact (ih reply).2 (h reply store hreply)

theorem keeps_current {post : Except Failure Generation → Scene → Prop}
    (h : ∀ g : Generation, g.databases.get? db = s.database → post (.ok g) s) :
    Cluster.current.Keeps (sceneTermsOf T opens db) post s := by
  refine ⟨trivial, ?_⟩
  rintro g s' ⟨hg, rfl⟩
  exact h g hg

theorem keeps_build {post : Except Failure Generation → Scene → Prop} {name : String} {isNew : Bool}
    {diff : ResourceDiff} {before : Generation} (h : post (diff.rebuild name isNew before) s)
    (herror : ∀ e, post (.error (.error e)) s) :
    (Cluster.build name isNew diff before).Keeps (sceneTermsOf T opens db) post s := by
  refine ⟨trivial, ?_⟩
  rintro reply s' ⟨rfl | ⟨e, rfl⟩, rfl⟩
  · exact keeps_ofResult.2 h
  · exact herror e

/-- After an installation the database is the one that was installed, unless there was no version left.
-/
theorem keeps_installDatabase {post : Except Failure Generation → Scene → Prop} {d : Database}
    (hname : d.name = db) (hok : ∀ g, post (.ok g) { s with database := some d })
    (herror : post (.error .overflow) s) :
    (Cluster.installDatabase d).Keeps (sceneTermsOf T opens db) post s := by
  refine ⟨hname, fun reply s' hs' => ?_⟩
  cases reply with
  | error f =>
    obtain ⟨rfl, rfl⟩ : f = .overflow ∧ s' = s := hs'
    exact herror
  | ok g =>
    obtain rfl : s' = { s with database := some d } := hs'
    exact hok g

/-- Requests that deal with pools only leave the scene alone. -/
theorem keeps_passive {owed : StoreRequest → Repository → Prop} {reasons : Error → Prop}
    {post : Except Failure α → Prop} {p : Cluster α}
    (h : p.Keeps (.any ClusterRequest.IsPassive) (fun r _ => post r) ())
    (hwarn : ∀ w s, owed (.warn w) s) (hopens : opens s) :
    p.Keeps (sceneTermsOf (Repository.terms owed reasons) opens db) (fun r s' => s' = s ∧ post r) s := by
  induction p with
  | done a => exact ⟨rfl, h⟩
  | stop f => exact ⟨rfl, h⟩
  | ask r k ih =>
    obtain ⟨hpassive, hnext⟩ := h
    -- the scene is the same after each of these requests
    have hsame : (sceneTermsOf (Repository.terms owed reasons) opens db).Owed r s
        ∧ ∀ reply s', (sceneTermsOf (Repository.terms owed reasons) opens db).Answers r s reply s' →
          s' = s := by
      cases r with
      | store call =>
        cases call with
        | warn w =>
          refine ⟨hwarn w s.store, ?_⟩
          rintro reply s' ⟨store, ⟨refusal, -, hanswer⟩, rfl⟩
          cases refusal <;> cases hanswer <;> rfl
        | _ => exact hpassive.elim
      | openPool unit properties => exact ⟨hopens, fun _ _ h => h⟩
      | retire policy pools => exact ⟨trivial, fun _ _ h => h⟩
      | _ => exact hpassive.elim
    refine ⟨hsame.1, fun reply s' hreply => ?_⟩
    obtain rfl := hsame.2 reply s' hreply
    exact ih reply (hnext reply () trivial)

end Scene

/-! ### One change -/

namespace UnitChange

variable {db name : String} {change : UnitChange} {s : Scene} {d : Database}

/-- **The state of a unit after a change.** A change that fails reaches the stored side at most. -/
def Outcome (change : UnitChange) (name : String) : Except Failure Unit → UnitState → UnitState → Prop
  | .ok _, old, new => new = (change.sets name).getD old
  | .error _, old, new => ∃ stored, new = { old with stored } ∧ change.Leaves name old.stored stored

/-- **How a change ends**: every unit has its outcome. -/
structure Ends (change : UnitChange) (db : String) (s : Scene) (result : Except Failure Unit)
    (s' : Scene) : Prop where
  named : s'.Named db
  units : ∀ name, change.Outcome name result (s.unit db name) (s'.unit db name)

/-- A change that fails before it writes anything. -/
theorem Ends.of_error (h : s.Named db) (f : Failure) : change.Ends db s (.error f) s :=
  ⟨h, fun _ => ⟨_, rfl, .inl rfl⟩⟩

/-- A change that fails after it has written something. -/
theorem Ends.of_written (h : s.Named db) (f : Failure) {result : Except Failure Unit}
    {store : Repository}
    (hwrites : ∀ name, change.Writes name result (Stored.unit? s.store db name)
      (Stored.unit? store db name)) : change.Ends db s (.error f) { s with store } :=
  ⟨h, fun name => ⟨Stored.unit? store db name, rfl, (hwrites name).1⟩⟩

/-- A change that is written and installed. -/
theorem Ends.of_installed {diff : ResourceDiff} (hdatabase : s.database = some d) (hname : d.name = db)
    (hnamed : d.resource.SelfNamed) (hyields : Yields d.resource change diff) {store : Repository}
    (hwrites : ∀ name, change.Writes name (.ok ()) (Stored.unit? s.store db name)
      (Stored.unit? store db name)) :
    change.Ends db s (.ok ())
      ⟨store, some { d with resource := diff.applyTo d.resource }⟩ where
  named d' hd' := by
    obtain rfl := Option.some.inj hd'
    exact ⟨hname, ResourceDiff.selfNamed_applyTo _ _⟩
  units name := by
    have hresource : s.resource = d.resource := by rw [Scene.resource, hdatabase]; rfl
    have hstored := (hwrites name).2 rfl
    obtain ⟨hlive, hpooled⟩ := hyields.unit_applyTo hnamed name
    show (⟨Stored.unit? store db name, (diff.applyTo d.resource).units.get? name,
      ((diff.applyTo d.resource).poolOf? name).isSome⟩ : UnitState) = _
    -- each side is what the change sets, or what it was
    rw [hstored, hlive, hpooled, ← hresource]
    cases change.sets name <;> rfl

/-- **Applying a change** writes it first and then installs the database, so what can be said after it
has been written, in full or in part, can be said in the end. -/
theorem keeps_apply_of_persist {T : Terms storeInterface Repository} {opens : Scene → Prop}
    {post : Except Failure Unit → Scene → Prop} {before : Generation} {diff : ResourceDiff}
    (hbefore : before.databases.get? db = some d) (hname : d.name = db)
    (hfail : ∀ f, post (.error f) s)
    (hpersist : ∀ reload, reload.database db = .ok { d with resource := diff.applyTo d.resource } →
      (change.persist db before reload).Keeps T (fun result store =>
        (∀ f, result = .error f → post (.error f) { s with store })
          ∧ (result = .ok () → post (.error .overflow) { s with store }
            ∧ post (.ok ()) ⟨store, some { d with resource := diff.applyTo d.resource }⟩)) s.store) :
    (change.apply db before diff).Keeps (sceneTermsOf T opens db) post s := by
  refine keeps_apply_of_stages (Scene.keeps_build ?_ fun e => hfail _)
  rcases rebuild_cases diff hbefore hname with hreload | ⟨reload, hreload, hchanged⟩
  · rw [hreload]
    exact hfail _
  · rw [hreload]
    dsimp only
    rw [hchanged]
    dsimp only
    rw [Scene.keeps_access]
    -- the database is installed only after everything has been written
    refine (hpersist reload hchanged).mono fun result store hwritten => ?_
    obtain ⟨herror, hok⟩ := hwritten
    cases result with
    | error f => exact herror f rfl
    | ok _ => exact Scene.keeps_installDatabase hname (fun g => (hok rfl).2) (hok rfl).1

/-- Applying a change ends well or leaves the generation as it is. -/
theorem keeps_apply_ends {before : Generation} {diff : ResourceDiff}
    (hnames : ∀ name u, change.sets name = some u → Path.IsName name) (h : s.Named db)
    (hbefore : before.databases.get? db = some d) (hdatabase : s.database = some d)
    (hyields : Yields d.resource change diff) :
    (change.apply db before diff).Keeps (sceneTerms db) (change.Ends db s) s := by
  obtain ⟨hname, hnamed⟩ := h d hdatabase
  refine keeps_apply_of_persist hbefore hname (fun f => .of_error h f) fun reload _ => ?_
  refine (keeps_persist hnames before reload s.store).mono fun result store hwrites => ⟨?_, ?_⟩
  · -- an error leaves the database as it was, though some of the units may be written
    rintro f rfl
    exact .of_written h f hwrites
  · rintro rfl
    exact ⟨.of_written h .overflow hwrites, .of_installed hdatabase hname hnamed hyields hwrites⟩

end UnitChange

namespace Service

open UnitChange

variable {db : String} {s : Scene} {change : UnitChange} (service : Service)

/-- **A change of storage units** deals with pools before and after it is applied, so it ends as its
application does, or before that. -/
theorem keeps_switchUnits_of_apply {owed : StoreRequest → Repository → Prop} {reasons : Error → Prop}
    {opens : Scene → Prop} {post : Except Failure Unit → Scene → Prop}
    (hwarn : ∀ w s, owed (.warn w) s) (hopens : opens s)
    (hends : ∀ result s', post result s' → result ≠ .error .overflow → opens s')
    (hfail : ∀ f, post (.error f) s)
    (happly : ∀ before d diff, before.databases.get? db = some d → s.database = some d →
      Yields d.resource change diff → (change.apply db before diff).Keeps
        (sceneTermsOf (Repository.terms owed reasons) opens db) post s) :
    (service.switchUnits db change).Keeps (sceneTermsOf (Repository.terms owed reasons) opens db)
      post s := by
  refine service.keeps_switchUnits_of_stages (Scene.keeps_current fun before hbefore => ?_)
  dsimp only
  cases hd : before.databases.get? db with
  | none => exact hfail _
  | some d =>
    -- pools are opened while the scene is still as it was
    refine (Scene.keeps_passive (diff_yields change d.resource) hwarn hopens).mono
      fun result s' hdiff => ?_
    obtain ⟨rfl, hyields⟩ := hdiff
    cases result with
    | error f => exact hfail f
    | ok diff =>
      refine (happly before d diff hd (hbefore.symm.trans hd) (hyields diff rfl)).mono
        fun result s' hpost => ?_
      rcases result with (e | _) | _
      · -- the pools that were opened are retired, and the error is passed on
        have hpools : (Cluster.warn (.unitChangeFailed db e) >>= fun _ =>
            Cluster.retire service.drain diff.opened.values >>= fun _ =>
              (Plan.fail e : Cluster Unit)).Keeps (.any ClusterRequest.IsPassive)
            (fun result _ => result = .error (.error e)) () :=
          ⟨trivial, fun _ _ _ => ⟨trivial, fun _ _ _ => rfl⟩⟩
        have hopens' : opens s' := hends _ _ hpost (by simp)
        refine (Scene.keeps_passive hpools hwarn hopens').mono fun result s'' hs'' => ?_
        obtain ⟨rfl, rfl⟩ := hs''
        exact hpost
      · exact hpost
      · -- the replaced pools are retired
        have hpools : (Cluster.retire service.drain diff.stale.values).Keeps
            (.any ClusterRequest.IsPassive) (fun result _ => result = .ok ()) () :=
          ⟨trivial, fun _ _ _ => rfl⟩
        have hopens' : opens s' := hends _ _ hpost (by simp)
        refine (Scene.keeps_passive hpools hwarn hopens').mono fun result s'' hs'' => ?_
        obtain ⟨rfl, rfl⟩ := hs''
        exact hpost

/-- A change of storage units gives every unit its outcome, whatever fails. -/
theorem keeps_switchUnits_ends
    (hnames : ∀ name u, change.sets name = some u → Path.IsName name) (h : s.Named db) :
    (service.switchUnits db change).Keeps (sceneTerms db) (change.Ends db s) s :=
  service.keeps_switchUnits_of_apply (fun _ _ => trivial) trivial (fun _ _ _ _ => trivial)
    (fun f => .of_error h f) fun _ _ _ hbefore hdatabase hyields =>
      keeps_apply_ends hnames h hbefore hdatabase hyields

end Service

end ClusterCatalog
