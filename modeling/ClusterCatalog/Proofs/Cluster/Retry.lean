import ClusterCatalog.Proofs.Cluster.Effect

/-!
# Repeating a change of storage units that has failed

A call of the repository can be refused at any point of an operation, which then leaves the store and
the current generation out of step. Is it safe to repeat the operation?

Registering and altering set the state of their units, whatever it was before. So a repeated call
ends as a single one does. Removing units is different: which units there are to be removed is read
from the store, and a unit that the failed call has removed from the store but not yet from the
generation is passed over by the next one. It stays live for good.

* `UnitChange.Ends.retry` — a change that is repeated ends as it does without a failure.
* `UnitOperation.Removal` — the state of a unit after removals, with `Removal.retry` for a repeated
  one.
* `UnitOperation.sameUnits_retry_iff` — a repeated operation ends as a single one exactly if the
  failed one has left no unit behind that is live but not stored.
-/

namespace ClusterCatalog

open Plan

/-! ### Store and generation -/

namespace Scene

variable {db : String} {s : Scene} {name : String}

/-- The units of the database as they are loaded from the store. -/
def storedUnits (db : String) (s : Scene) : Except Failure (SortedMap PoolProperties) :=
  ((Stored.loadUnits db).run Repository.answer s.store).1

/-- **Store and generation agree** on the units of the database, which stand under their own names in
the generation, as the database does. -/
structure Agrees (db : String) (s : Scene) : Prop where
  named : s.Named db
  stored : s.storedUnits db = .ok s.resource.properties

/-- **A unit is backed**: if it is live, it is stored. -/
def Backed (db : String) (s : Scene) (unit : String) : Prop :=
  s.resource.units.contains unit = true →
    (s.storedUnits db).toOption.any (·.contains unit) = true

instance (db : String) (s : Scene) (unit : String) : Decidable (s.Backed db unit) :=
  inferInstanceAs (Decidable (_ → _))

/-- **The same units** in the store and in the generation, with pools for the same ones. -/
structure SameUnits (db : String) (s s' : Scene) : Prop where
  stored : s.storedUnits db = s'.storedUnits db
  live : s.resource.units = s'.resource.units
  pooled : ∀ unit, (s.resource.poolOf? unit).isSome = (s'.resource.poolOf? unit).isSome

theorem storedUnits_eq (db : String) (s : Scene) : s.storedUnits db = Stored.unitsIn s.store db :=
  congrArg Prod.fst (Stored.reads_loadUnits s.store db).run

/-- **Units in the same state** are the same units. -/
theorem sameUnits_of_unit {s' : Scene} (h : ∀ name, s.unit db name = s'.unit db name) :
    SameUnits db s s' where
  stored := by
    rw [storedUnits_eq, storedUnits_eq]
    exact Stored.unitsIn_congr fun name => congrArg UnitState.stored (h name)
  live := SortedMap.ext fun name => congrArg UnitState.live (h name)
  pooled name := congrArg UnitState.pooled (h name)

theorem contains_of_storedUnits {m : SortedMap PoolProperties} (h : s.storedUnits db = .ok m) :
    m.contains name = true ↔ (s.unit db name).IsStored := by
  rw [storedUnits_eq] at h
  exact Stored.contains_unitsIn h

/-- Only names are listed. -/
theorem isName_of_isStored (h : (s.unit db name).IsStored) : Path.IsName name := by
  obtain ⟨text, htext⟩ := h
  by_contra hname
  rw [Scene.unit, Stored.unit?_of_not_isName hname] at htext
  cases htext

/-- Where store and generation agree, the live units are those that are stored. -/
theorem Agrees.isStored_iff (h : s.Agrees db) :
    (s.unit db name).IsStored ↔ (s.unit db name).live.isSome := by
  rw [← contains_of_storedUnits h.stored, ResourceDiff.properties_contains]
  rfl

end Scene

/-! ### A repeated change -/

namespace UnitChange

variable {db : String} {change : UnitChange} {s s₁ s₂ s₃ : Scene}

/-- **A change that is repeated** ends as it does without a failure: it sets its own units, and has
left all others alone. -/
theorem Ends.retry {f : Failure} (h₁ : change.Ends db s (.error f) s₁)
    (h₂ : change.Ends db s₁ (.ok ()) s₂) (h₃ : change.Ends db s (.ok ()) s₃) :
    Scene.SameUnits db s₂ s₃ := by
  refine Scene.sameUnits_of_unit fun name => ?_
  obtain ⟨stored, hstored, hleaves⟩ := h₁.units name
  have hretry : s₂.unit db name = (change.sets name).getD (s₁.unit db name) := h₂.units name
  have hfree : s₃.unit db name = (change.sets name).getD (s.unit db name) := h₃.units name
  rw [hretry, hfree]
  cases hset : change.sets name with
  | some u => rfl
  | none =>
    -- the failed change has not touched the unit either
    rcases hleaves with hsame | ⟨u, hu, -⟩
    · rw [hstored, hsame]
    · rw [hset] at hu
      cases hu

end UnitChange

/-! ### Removals -/

namespace UnitOperation

/-- The units that an operation removes. -/
def removals : UnitOperation → List String
  | unregister units => units
  | _ => []

/-- **The state of a unit after removals.** A removal that fails may have removed units already, and
the one that it was at from the store only. -/
def Removal (names : List String) (name : String) :
    Except Failure Unit → UnitState → UnitState → Prop
  | .ok _, old, new =>
    (name ∈ names ∧ old.IsStored ∧ new = .absent) ∨ (¬ (name ∈ names ∧ old.IsStored) ∧ new = old)
  | .error _, old, new =>
    new = old ∨ name ∈ names ∧ old.IsStored ∧ (new = .absent ∨ new = { old with stored := none })

namespace Removal

variable {names seen : List String} {name unit : String} {f : Failure} {old mid new : UnitState}

/-- One more unit is removed. -/
theorem removed (h : Removal seen name (.ok ()) old mid) (hunit : name = unit → old.IsStored)
    (hends : (UnitChange.unregister unit).Outcome name (.ok ()) mid new) :
    Removal (seen ++ [unit]) name (.ok ()) old new := by
  obtain rfl : new = (if name = unit then some .absent else none : Option UnitState).getD mid := hends
  by_cases hname : name = unit
  · rw [if_pos hname]
    exact .inl ⟨List.mem_append_right _ (hname ▸ List.mem_singleton_self _), hunit hname, rfl⟩
  · rw [if_neg hname]
    have hmem : name ∈ seen ++ [unit] ↔ name ∈ seen := by simp [hname]
    unfold Removal at h ⊢
    rw [hmem]
    exact h

/-- One more name is passed over. -/
theorem passed (h : Removal seen name (.ok ()) old mid) (hunit : name = unit → ¬ old.IsStored) :
    Removal (seen ++ [unit]) name (.ok ()) old mid := by
  have hmem : name ∈ seen ++ [unit] ∧ old.IsStored ↔ name ∈ seen ∧ old.IsStored := by
    rw [List.mem_append, List.mem_singleton]
    constructor
    · rintro ⟨hseen | hname, hstored⟩
      · exact ⟨hseen, hstored⟩
      · exact absurd hstored (hunit hname)
    · rintro ⟨hseen, hstored⟩
      exact ⟨.inl hseen, hstored⟩
  rcases h with ⟨hseen, hstored, hmid⟩ | ⟨hnot, hmid⟩
  · exact .inl ⟨(hmem.2 ⟨hseen, hstored⟩).1, hstored, hmid⟩
  · exact .inr ⟨fun h => hnot (hmem.1 h), hmid⟩

/-- The removal of one more unit fails. -/
theorem failed (h : Removal seen name (.ok ()) old mid) (hunit : name = unit → old.IsStored)
    (hseen : ∀ n ∈ seen, n ∈ names) (hmem : unit ∈ names)
    (hends : (UnitChange.unregister unit).Outcome name (.error f) mid new) :
    Removal names name (.error f) old new := by
  obtain ⟨stored, rfl, hleaves⟩ := hends
  rcases hleaves with hsame | ⟨u, hu, hnone⟩
  · -- nothing was written, so the unit is as the removals before have left it
    obtain rfl : stored = mid.stored := hsame
    rcases h with ⟨hname, hstored, hmid⟩ | ⟨-, hmid⟩
    · exact .inr ⟨hseen name hname, hstored, .inl hmid⟩
    · exact .inl hmid
  · change (if name = unit then some .absent else none) = some u at hu
    split at hu
    · -- the unit itself is gone from the store; it may have been removed before under the same name
      rename_i hname
      obtain rfl := Option.some.inj hu
      obtain rfl : stored = none := hnone rfl
      refine .inr ⟨hname ▸ hmem, hunit hname, ?_⟩
      rcases h with ⟨-, -, rfl⟩ | ⟨-, rfl⟩
      · exact .inl rfl
      · exact .inr rfl
    · cases hu

/-- **A repeated removal** ends as it does without a failure exactly for a unit that is not left live
without being stored. -/
theorem retry {u u₁ u₂ u₃ : UnitState} (hagree : u.IsStored ↔ u.live.isSome)
    (h₁ : Removal names name (.error f) u u₁) (h₂ : Removal names name (.ok ()) u₁ u₂)
    (h₃ : Removal names name (.ok ()) u u₃) :
    ((name ∈ names → u₁.live.isSome → u₁.IsStored) → u₂ = u₃)
      ∧ (u₂.live = u₃.live → name ∈ names → u₁.live.isSome → u₁.IsStored) := by
  have habsent : ¬ UnitState.absent.IsStored := fun ⟨_, h⟩ => by cases h
  rcases h₁ with rfl | ⟨hname, hstored, rfl | rfl⟩
  · -- nothing has happened to the unit
    refine ⟨fun _ => ?_, fun _ _ => hagree.2⟩
    rcases h₂ with ⟨hname, hstored, rfl⟩ | ⟨hnot, rfl⟩
    · rcases h₃ with ⟨-, -, rfl⟩ | ⟨hnot, -⟩
      · rfl
      · exact absurd ⟨hname, hstored⟩ hnot
    · rcases h₃ with ⟨hname, hstored, -⟩ | ⟨-, rfl⟩
      · exact absurd ⟨hname, hstored⟩ hnot
      · rfl
  · -- the unit is gone on all sides
    refine ⟨fun _ => ?_, fun _ _ h => by cases h⟩
    rcases h₂ with ⟨-, h, -⟩ | ⟨-, rfl⟩
    · exact absurd h habsent
    · rcases h₃ with ⟨-, -, rfl⟩ | ⟨hnot, -⟩
      · rfl
      · exact absurd ⟨hname, hstored⟩ hnot
  · -- the unit is gone from the store only: the repeated removal passes it over
    have hnone : ¬ ({ u with stored := none } : UnitState).IsStored := fun ⟨_, h⟩ => by cases h
    have hlive := hagree.1 hstored
    refine ⟨fun h => absurd (h hname hlive) hnone, fun hsame _ _ => ?_⟩
    rcases h₂ with ⟨-, h, -⟩ | ⟨-, rfl⟩
    · exact absurd h hnone
    · rcases h₃ with ⟨-, -, rfl⟩ | ⟨hnot, -⟩
      · have : u.live = none := hsame
        rw [this] at hlive
        cases hlive
      · exact absurd ⟨hname, hstored⟩ hnot

end Removal

/-- **How removals end**: every unit is in the state that it has after them. -/
structure EndsRemoval (names : List String) (db : String) (s : Scene) (result : Except Failure Unit)
    (s' : Scene) : Prop where
  named : s'.Named db
  units : ∀ name, Removal names name result (s.unit db name) (s'.unit db name)

/-- Nothing has been removed yet. -/
theorem EndsRemoval.refl {db : String} {s : Scene} (h : s.Named db) :
    EndsRemoval [] db s (.ok ()) s :=
  ⟨h, fun _ => .inr ⟨fun h => absurd h.1 List.not_mem_nil, rfl⟩⟩

/-- **Removing units** one after the other. -/
theorem keeps_unregisterUnits (service : Service) {db : String} {s : Scene} (h : s.Named db)
    (names : List String) :
    (service.unregisterUnits db names).Keeps (sceneTerms db)
      (fun result s' => EndsRemoval names db s result s'
        ∧ (result = .ok () → ∃ stored, s.storedUnits db = .ok stored)) s := by
  unfold Service.unregisterUnits
  rw [keeps_bind, Scene.keeps_access]
  refine Stored.reads_loadUnits s.store db _ _ (fun e _ => ⟨⟨h, fun _ => .inl rfl⟩, fun h => by cases h⟩) ?_
  rw [← Scene.storedUnits_eq]
  cases hstored : s.storedUnits db with
  | error f => exact ⟨⟨h, fun _ => .inl rfl⟩, fun h => by cases h⟩
  | ok stored =>
    -- the names that have been seen are removed as far as they were stored when the loop began
    refine Keeps.forM
      (fun rest s' => ∃ seen, seen ++ rest = names ∧ EndsRemoval seen db s (.ok ()) s')
      ⟨[], rfl, .refl h⟩ ?_ ?_
    · rintro unit rest s' ⟨seen, hsplit, hnamed, hunits⟩
      have hnext : (seen ++ [unit]) ++ rest = names := by
        rw [List.append_assoc]
        exact hsplit
      split
      · rename_i hunit
        rw [Scene.contains_of_storedUnits hstored] at hunit
        -- what is loaded was listed, so it is a name
        have hname : ∀ name u, (UnitChange.unregister unit).sets name = some u →
            Path.IsName name := fun _ _ hu =>
          UnitChange.isName_of_unregister (Scene.isName_of_isStored hunit) hu
        refine (service.keeps_switchUnits_ends hname hnamed).mono fun result s'' hends => ?_
        cases result with
        | ok _ =>
          exact ⟨seen ++ [unit], hnext, hends.named, fun name =>
            (hunits name).removed (fun heq => heq ▸ hunit) (hends.units name)⟩
        | error f =>
          refine ⟨⟨hends.named, fun name => ?_⟩, fun h => by cases h⟩
          refine (hunits name).failed (fun heq => heq ▸ hunit) (fun n hn => ?_) ?_ (hends.units name)
          · rw [← hsplit]
            exact List.mem_append_left _ hn
          · rw [← hnext]
            exact List.mem_append_left _ (List.mem_append_right _ (List.mem_singleton_self _))
      · rename_i hunit
        rw [Scene.contains_of_storedUnits hstored] at hunit
        exact ⟨seen ++ [unit], hnext, hnamed, fun name =>
          (hunits name).passed fun heq => heq ▸ hunit⟩
    · rintro s' ⟨seen, hsplit, hends⟩
      rw [List.append_nil] at hsplit
      exact ⟨hsplit ▸ hends, fun _ => ⟨stored, rfl⟩⟩

/-! ### The whole operation -/

/-- What a run of an operation ends with is what the operation keeps to. -/
theorem run_of_keeps {db : String} {p : Cluster Unit} {s s' : Stage} {result : Except Failure Unit}
    {post : Except Failure Unit → Scene → Prop} (h : p.Keeps (sceneTerms db) post (s.scene db))
    (hrun : p.run Stage.answer s = (result, s')) : post result (s'.scene db) := by
  have hpost := h.run fun r s => Stage.answer_scene db r s
  rw [hrun] at hpost
  exact hpost

/-- **When it is safe to repeat an operation.** Let store and generation agree, the database and its
units standing under their own names in the generation (`Scene.Agrees`), and let an operation fail in
some way; let it be repeated without faults, and let it succeed. Then the database has the same units
as after the operation without faults, if and only if the failed call has left no unit to be removed
live without being stored. In particular, registering and altering can always be repeated. -/
theorem sameUnits_retry_iff (service : Service) {db : String} (op : UnitOperation)
    {s s₁ s₂ s₃ : Stage} {e : Error} (hnames : ∀ name ∈ op.names, Path.IsName name)
    (hagrees : (s.scene db).Agrees db)
    (hfirst : (op.run service db).run Stage.answer s = (.error (.error e), s₁))
    (hretry : (op.run service db).run Stage.answer { s₁ with faults := [] } = (.ok (), s₂))
    (hfree : (op.run service db).run Stage.answer { s with faults := [] } = (.ok (), s₃)) :
    Scene.SameUnits db (s₂.scene db) (s₃.scene db)
      ↔ ∀ unit ∈ op.removals, (s₁.scene db).Backed db unit := by
  -- an operation of one change needs no condition
  have hchange : ∀ change : UnitChange, op.run service db = service.switchUnits db change →
      (∀ name u, change.sets name = some u → name ∈ op.names) →
      Scene.SameUnits db (s₂.scene db) (s₃.scene db) := by
    intro change hrun hsets
    rw [hrun] at hfirst hretry hfree
    have hname : ∀ name u, change.sets name = some u → Path.IsName name := fun name u hu =>
      hnames name (hsets name u hu)
    have h₁ := run_of_keeps (service.keeps_switchUnits_ends hname hagrees.named) hfirst
    have h₂ := run_of_keeps (s := { s₁ with faults := [] })
      (service.keeps_switchUnits_ends hname h₁.named) hretry
    have h₃ := run_of_keeps (s := { s with faults := [] })
      (service.keeps_switchUnits_ends hname hagrees.named) hfree
    exact h₁.retry h₂ h₃
  have hkeys : ∀ (units : SortedMap PoolProperties) (name : String) (u : UnitState),
      (units.get? name).map (UnitState.present name) = some u → name ∈ units.keys := by
    intro units name u hu
    obtain ⟨properties, hget, -⟩ := Option.map_eq_some_iff.1 hu
    exact (SortedMap.mem_keys_iff units).2 (SortedMap.contains_iff.2 ⟨properties, hget⟩)
  cases op with
  | register units =>
    exact iff_of_true (hchange (.register units) rfl (hkeys units)) fun _ h =>
      absurd h List.not_mem_nil
  | alter units =>
    exact iff_of_true (hchange (.alter units) rfl (hkeys units)) fun _ h =>
      absurd h List.not_mem_nil
  | unregister names =>
    have h₁ := run_of_keeps (keeps_unregisterUnits service hagrees.named names) hfirst
    have h₂ := run_of_keeps (s := { s₁ with faults := [] })
      (keeps_unregisterUnits service h₁.1.named names) hretry
    have h₃ := run_of_keeps (s := { s with faults := [] })
      (keeps_unregisterUnits service hagrees.named names) hfree
    -- the repeated call has loaded the units that the failed one has left
    obtain ⟨stored, hstored⟩ := h₂.2 rfl
    have hbacked : ∀ unit, (s₁.scene db).Backed db unit
        ↔ (((s₁.scene db).unit db unit).live.isSome → ((s₁.scene db).unit db unit).IsStored) := by
      intro unit
      have hloaded : (s₁.scene db).storedUnits db = .ok stored := hstored
      rw [Scene.Backed, hloaded, ← Scene.contains_of_storedUnits hloaded]
      rfl
    have hunit := fun name =>
      Removal.retry hagrees.isStored_iff (h₁.1.units name) (h₂.1.units name) (h₃.1.units name)
    -- both directions are argued unit by unit
    constructor
    · intro hsame unit hmem
      refine (hbacked unit).2 ((hunit unit).2 ?_ hmem)
      exact congrArg (fun units => units.get? unit) hsame.live
    · intro hall
      refine Scene.sameUnits_of_unit fun name => (hunit name).1 fun hmem => ?_
      exact (hbacked name).1 (hall name hmem)

/-- A node whose only database has one unit and an empty schema, with faults to come. -/
def oneUnit (faults : List Fault) : Stage :=
  let units : SortedMap PoolProperties := .ofList [("a", ⟨"u", "n", "", ∅⟩)]
  let database : Database :=
    { name := "d"
      resource := ⟨.ofList [("a", 0)], Resource.unitsOf units⟩
      schemas := Database.schemasOf [{ name := "s" }] }
  { repository := ((Stored.persistUnits "d" units).run Repository.answer (.memory .empty)).2
    faults
    generation := { databases := Generation.databasesOf [database] }
    pools := [⟨"a", "u", 0, false, false⟩] }

theorem named_oneUnit (faults : List Fault) : ((oneUnit faults).scene "d").Named "d" := by
  intro d hd
  simp only [Stage.scene, oneUnit, Generation.databasesOf] at hd
  have hentry := List.mem_singleton.1 (SortedMap.mem_of_get?_ofList hd)
  obtain rfl := (Prod.mk.inj hentry).2
  exact ⟨rfl, Resource.selfNamed_unitsOf _ _⟩

/-- The unit cannot be removed at first, and then nothing has happened to it. -/
theorem sameUnits_retry_of_refused_delete :
    let service : Service := ⟨0, ⟨1, 1⟩, fun _ _ => .done ()⟩
    let stage := oneUnit [⟨.delete, "", 0, some 1⟩]
    let call := (unregister ["a"]).run service "d"
    let first := call.run Stage.answer stage
    let retry := call.run Stage.answer { first.2 with faults := [] }
    let free := call.run Stage.answer { stage with faults := [] }
    let refusal := Error.repository "delete rejected: /metadata/d/data_sources/units/a"
    (first.1 = .error (.error refusal) ∧ retry.1 = .ok () ∧ free.1 = .ok ())
      ∧ Scene.SameUnits "d" (retry.2.scene "d") (free.2.scene "d") := by
  intro service stage call first retry free refusal
  -- the deletion itself was refused, so the store still has the unit when the call is made again
  have hruns : (first.1 = .error (.error refusal) ∧ retry.1 = .ok () ∧ free.1 = .ok ())
      ∧ (∀ unit ∈ ["a"], (first.2.scene "d").Backed "d" unit)
      ∧ (stage.scene "d").storedUnits "d" = .ok (stage.scene "d").resource.properties := by
    decide +kernel
  obtain ⟨hresults, hbacked, hstored⟩ := hruns
  have hagrees : (stage.scene "d").Agrees "d" := ⟨named_oneUnit _, hstored⟩
  have hfirst : call.run Stage.answer stage = (.error (.error refusal), first.2) := by
    show first = _
    rw [← hresults.1]
  have hretry : call.run Stage.answer { first.2 with faults := [] } = (.ok (), retry.2) := by
    show retry = _
    rw [← hresults.2.1]
  have hfree : call.run Stage.answer { stage with faults := [] } = (.ok (), free.2) := by
    show free = _
    rw [← hresults.2.2]
  clear_value stage first retry free
  exact ⟨hresults, (sameUnits_retry_iff service (.unregister ["a"]) (by decide) hagrees hfirst hretry
    hfree).2 hbacked⟩

/-- **A removal that is repeated can leave its unit live.** The unit is gone from the store when the
schema cannot be written. The error says that the call may be repeated; the repeated call finds
nothing to remove and succeeds. -/
theorem retry_not_always_same :
    let service : Service := ⟨0, ⟨1, 1⟩, fun _ _ => .done ()⟩
    let stage := oneUnit [⟨.persist, "/schemas/", 0, some 1⟩]
    let call := (unregister ["a"]).run service "d"
    let first := call.run Stage.answer stage
    let retry := call.run Stage.answer { first.2 with faults := [] }
    let free := call.run Stage.answer { stage with faults := [] }
    let refusal := Error.repository "persist rejected: /metadata/d/schemas/s/tables"
    (stage.scene "d").Agrees "d" ∧ first.1 = .error (.error refusal) ∧ refusal.isRetryable = true
      ∧ retry.1 = .ok () ∧ free.1 = .ok ()
      ∧ ¬ Scene.SameUnits "d" (retry.2.scene "d") (free.2.scene "d") := by
  intro service stage call first retry free refusal
  -- the deletion went through and what follows it was refused: the call made again finds nothing to
  -- remove
  have hruns : (stage.scene "d").storedUnits "d" = .ok (stage.scene "d").resource.properties
      ∧ first.1 = .error (.error refusal) ∧ retry.1 = .ok () ∧ free.1 = .ok ()
      ∧ (retry.2.scene "d").resource.units ≠ (free.2.scene "d").resource.units := by
    decide +kernel
  obtain ⟨hstored, hfirst, hretry, hfree, hne⟩ := hruns
  exact ⟨⟨named_oneUnit _, hstored⟩, hfirst, rfl, hretry, hfree, fun h => hne h.live⟩

end UnitOperation

end ClusterCatalog
