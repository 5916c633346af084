import ClusterCatalog.Cluster.Generation
import ClusterCatalog.Proofs.SortedMap
import ClusterCatalog.Proofs.Tree.Separation

/-!
# Names in a generation

A generation keeps its databases, storage units, schemas, tables and views in maps, and most of what
stands in a map has a name of its own as well. Nothing forces the two to be the same. The store knows a
definition by the name that it has itself, and the generation knows it by the key that it stands under,
so what is compared or written from a generation comes out right only where both agree.

Two things are asked for, apart or together:

* `SelfNamed` — whatever is in the maps stands **under its own name**: `Schema.SelfNamed` for tables and
  views, `Schemas.SelfNamed` for those of all schemas, `Resource.SelfNamed` for storage units,
  `Generation.SelfNamed` for databases. Names may be anything.
* `HasNames` — whatever is written has **a name that can stand in a path**: `Schema.HasNames`,
  `Schemas.HaveNames`, `Generation.HasNames`. Keys may differ from the names.
* `Keyed` — both: `Schema.Keyed` for tables and views, `Schemas.Keyed` for schemas with all that is in
  them. It implies each of the two (`Schemas.Keyed.selfNamed`, `Schemas.Keyed.haveNames`).
-/

namespace ClusterCatalog

/-! ### Maps -/

namespace SortedMap

variable {α : Type} {name : α → String} {m : SortedMap α}

/-- **Everything in a map stands under its own name.** -/
def SelfNamed (name : α → String) (m : SortedMap α) : Prop :=
  ∀ key a, m.get? key = some a → name a = key

/-- The same, told of the entries: so it can be decided. -/
theorem selfNamed_iff : m.SelfNamed name ↔ ∀ e ∈ m.entries, name e.2 = e.1 :=
  ⟨fun h e he => h e.1 e.2 (m.get?_eq_some_iff.2 he),
    fun h key a ha => h (key, a) (m.get?_eq_some_iff.1 ha)⟩

instance (name : α → String) (m : SortedMap α) : Decidable (m.SelfNamed name) :=
  decidable_of_iff _ selfNamed_iff.symm

/-- What is in such a map is found by its name. -/
theorem SelfNamed.get?_name (h : m.SelfNamed name) {a : α} (ha : a ∈ m.values) :
    m.get? (name a) = some a := by
  obtain ⟨key, hkey⟩ := mem_values_iff.1 ha
  rwa [h key a hkey]

/-- Something is put into the map under its own name. -/
theorem SelfNamed.insert (h : m.SelfNamed name) (a : α) : (m.insert (name a) a).SelfNamed name := by
  intro key b hb
  rw [get?_insert] at hb
  -- what is put in stands under its own name, and all else is as it was
  split at hb
  · rename_i heq
    exact Option.some.inj hb ▸ heq.symm
  · exact h key b hb

/-- A map that is made of a list, everything under its own name. -/
theorem selfNamed_ofList (name : α → String) (l : List α) :
    (ofList (l.map fun a => (name a, a))).SelfNamed name := by
  intro key a ha
  -- of equal names the last one stays, and it stands under its name like the others
  obtain ⟨b, -, heq⟩ := List.mem_map.1 (mem_of_get?_ofList ha)
  obtain ⟨rfl, rfl⟩ := Prod.mk.inj heq
  rfl

end SortedMap

/-! ### Under their own names -/

/-- **The tables and views of a schema stand under their own names.** -/
structure Schema.SelfNamed (x : Schema) : Prop where
  tables : x.tables.SelfNamed Table.name
  views : x.views.SelfNamed View.name

instance (x : Schema) : Decidable x.SelfNamed :=
  decidable_of_iff (x.tables.SelfNamed Table.name ∧ x.views.SelfNamed View.name)
    ⟨fun h => ⟨h.1, h.2⟩, fun h => ⟨h.tables, h.views⟩⟩

/-- **The tables and views of all schemas stand under their own names.** The schemas need not. -/
def Schemas.SelfNamed (m : Schemas) : Prop := ∀ e ∈ m.entries, e.2.SelfNamed

instance (m : Schemas) : Decidable m.SelfNamed := inferInstanceAs (Decidable (∀ e ∈ m.entries, _))

/-- **The storage units of a database stand under their own names.** -/
def Resource.SelfNamed (r : Resource) : Prop := r.units.SelfNamed StorageUnit.name

/-- Units that are made of properties stand under their own names. -/
theorem Resource.selfNamed_unitsOf (pools : SortedMap PoolId) (properties : SortedMap PoolProperties) :
    Resource.SelfNamed ⟨pools, Resource.unitsOf properties⟩ := by
  intro name u hu
  change (properties.map StorageUnit.mk).get? name = some u at hu
  rw [SortedMap.get?_map] at hu
  obtain ⟨found, -, rfl⟩ := Option.map_eq_some_iff.1 hu
  rfl

/-- **The databases of a generation stand under their own names.** -/
def Generation.SelfNamed (g : Generation) : Prop := g.databases.SelfNamed Database.name

/-- The databases of a generation that is made of a list of them stand so. -/
theorem Generation.selfNamed_of_databasesOf {g : Generation} {l : List Database}
    (h : g.databases = Generation.databasesOf l) : g.SelfNamed := by
  unfold Generation.SelfNamed
  rw [h]
  exact SortedMap.selfNamed_ofList Database.name l

/-! ### Names that can stand in a path -/

/-- **A schema has names** wherever there should be one. -/
structure Schema.HasNames (x : Schema) : Prop where
  name : Path.IsName x.name
  tables : ∀ key t, x.tables.get? key = some t → Path.IsName t.name
  views : ∀ key v, x.views.get? key = some v → Path.IsName v.name

/-- Schemas have names, and stand under names. -/
def Schemas.HaveNames (m : Schemas) : Prop :=
  ∀ key x, m.get? key = some x → Path.IsName key ∧ x.HasNames

/-- **A generation has names** wherever its schemas should have one. -/
def Generation.HasNames (g : Generation) : Prop :=
  ∀ db d, g.databases.get? db = some d → d.schemas.HaveNames

namespace Schema.HasNames

variable {x : Schema}

/-- A table with a name may be put in. -/
theorem putTable (h : x.HasNames) {t : Table} (ht : Path.IsName t.name) :
    (x.putTable t).HasNames where
  name := h.name
  tables key t' ht' := by
    change (x.tables.insert t.name t).get? key = some t' at ht'
    rw [SortedMap.get?_insert] at ht'
    -- the table put in has a name, and the others were there before
    split at ht'
    · exact Option.some.inj ht' ▸ ht
    · exact h.tables key t' ht'
  views := h.views

/-- A view with a name may be put in. -/
theorem putView (h : x.HasNames) {v : View} (hv : Path.IsName v.name) : (x.putView v).HasNames where
  name := h.name
  tables := h.tables
  views key v' hv' := by
    change (x.views.insert v.name v).get? key = some v' at hv'
    rw [SortedMap.get?_insert] at hv'
    split at hv'
    · exact Option.some.inj hv' ▸ hv
    · exact h.views key v' hv'

/-- All tables of such a schema have names. -/
theorem mem_tables (h : x.HasNames) : ∀ t ∈ x.tables.values, Path.IsName t.name := by
  intro t ht
  obtain ⟨e, he, rfl⟩ := List.mem_map.1 ht
  exact h.tables e.1 e.2 ((SortedMap.get?_eq_some_iff _).2 he)

/-- All views of such a schema have names. -/
theorem mem_views (h : x.HasNames) : ∀ v ∈ x.views.values, Path.IsName v.name := by
  intro v hv
  obtain ⟨e, he, rfl⟩ := List.mem_map.1 hv
  exact h.views e.1 e.2 ((SortedMap.get?_eq_some_iff _).2 he)

end Schema.HasNames

/-- The same, told of the entries. -/
theorem Schemas.HaveNames.mem_entries {m : Schemas} (h : m.HaveNames) :
    ∀ e ∈ m.entries, Path.IsName e.1 ∧ e.2.HasNames := fun e he =>
  h e.1 e.2 ((SortedMap.get?_eq_some_iff _).2 he)

/-! ### Both -/

/-- **The tables and views of a schema stand under their own names**, which can stand in a path. -/
def Schema.Keyed (x : Schema) : Prop :=
  (∀ t ∈ x.tables.entries, Path.IsName t.1 ∧ t.2.name = t.1)
    ∧ ∀ v ∈ x.views.entries, Path.IsName v.1 ∧ v.2.name = v.1

instance (x : Schema) : Decidable x.Keyed := inferInstanceAs (Decidable (_ ∧ _))

/-- **Schemas stand under their own names, with their tables and views**, and all of these can stand in
a path. -/
def Schemas.Keyed (m : Schemas) : Prop :=
  ∀ e ∈ m.entries, Path.IsName e.1 ∧ e.2.name = e.1 ∧ e.2.Keyed

instance (m : Schemas) : Decidable m.Keyed := inferInstanceAs (Decidable (∀ e ∈ m.entries, _))

/-- Names apart, the tables and views of such a schema stand under their own. -/
theorem Schema.Keyed.selfNamed {x : Schema} (h : x.Keyed) : x.SelfNamed where
  tables := SortedMap.selfNamed_iff.2 fun t ht => (h.1 t ht).2
  views := SortedMap.selfNamed_iff.2 fun v hv => (h.2 v hv).2

/-- Under a name that can stand in a path, such a schema has names. -/
theorem Schema.Keyed.hasNames {x : Schema} (h : x.Keyed) (hname : Path.IsName x.name) :
    x.HasNames where
  name := hname
  tables key t ht := by
    obtain ⟨hkey, htable⟩ := h.1 (key, t) (x.tables.get?_eq_some_iff.1 ht)
    exact htable ▸ hkey
  views key v hv := by
    obtain ⟨hkey, hview⟩ := h.2 (key, v) (x.views.get?_eq_some_iff.1 hv)
    exact hview ▸ hkey

namespace Schemas.Keyed

variable {m : Schemas}

/-- **Keyed schemas are self-named**, tables and views alike. -/
theorem selfNamed (h : m.Keyed) : m.SelfNamed := fun e he => (h e he).2.2.selfNamed

/-- **Keyed schemas have names.** -/
theorem haveNames (h : m.Keyed) : m.HaveNames := by
  intro key x hx
  obtain ⟨hkey, hname, hkeyed⟩ := h (key, x) (m.get?_eq_some_iff.1 hx)
  exact ⟨hkey, hkeyed.hasNames (hname ▸ hkey)⟩

/-- A schema among them is found by its name, and has names. -/
theorem of_mem_values (h : m.Keyed) {x : Schema} (hx : x ∈ m.values) :
    Path.IsName x.name ∧ x.HasNames ∧ m.get? x.name = some x := by
  obtain ⟨key, hkey⟩ := SortedMap.mem_values_iff.1 hx
  obtain ⟨hname, hxname, -⟩ := h (key, x) (m.get?_eq_some_iff.1 hkey)
  obtain rfl : x.name = key := hxname
  exact ⟨hname, (h.haveNames _ _ hkey).2, hkey⟩

end Schemas.Keyed

end ClusterCatalog
