import ClusterCatalog.Proofs.Store.InOrder
import ClusterCatalog.Store.Reload

/-!
# How a reload differs

The schemas of a database before and after a reload are two maps. What differs is written down as
**changes** of definitions: each is a place with its new text, or with none if the definition goes.

* `Schemas.mem_toBeWritten_iff`, `Schemas.mem_toBeDropped_iff` — which definitions are written and
  which tables are dropped, where everything is under its own name.
* `Stored.mem_reloadChanges_iff` — a change leads to what the reload has, and there is one for each
  table that differs. A view only changes if views are written, and never goes.
-/

namespace ClusterCatalog

open Plan Repository

namespace Schemas

/-- The schema of a name, empty if there is none. -/
def schema (m : Schemas) (name : String) : Schema := (m.get? name).getD { name }

variable {m reloaded current : Schemas} {name : String} {x : Schema}

theorem Keyed.schema (h : m.Keyed) (name : String) :
    (m.schema name).name = name ∧ (m.schema name).Keyed := by
  unfold Schemas.schema
  cases hget : m.get? name with
  | none =>
    exact ⟨rfl, fun _ h => absurd h List.not_mem_nil, fun _ h => absurd h List.not_mem_nil⟩
  | some x => exact (h (name, x) (m.get?_eq_some_iff.1 hget)).2

private theorem foldl_putTable (l : List Table) (y : Schema) : l.foldl Schema.putTable y
    = { y with tables := l.foldl (fun m t => m.insert t.name t) y.tables } := by
  induction l generalizing y with
  | nil => rfl
  | cons t l ih => exact ih (y.putTable t)

private theorem foldl_putView (l : List View) (y : Schema) : l.foldl Schema.putView y
    = { y with views := l.foldl (fun m v => m.insert v.name v) y.views } := by
  induction l generalizing y with
  | nil => rfl
  | cons v l ih => exact ih (y.putView v)

/-- **What is to be written of a schema** are the tables and views that differ. -/
theorem additions_eq (hx : x.Keyed) (current : Option Schema) :
    additions name x current =
      { name
        tables := x.tables.filter fun key t => current.bind (fun c => c.tables.get? key) != some t
        views := x.views.filter fun key v => current.bind (fun c => c.views.get? key) != some v } := by
  unfold additions Schema.ofTables
  rw [foldl_putView, foldl_putTable]
  have htables : x.tables.values.filter
      (fun t => current.bind (fun c => c.tables.get? t.name) != some t)
        = (x.tables.filter fun key t =>
            current.bind (fun c => c.tables.get? key) != some t).values :=
    SortedMap.values_filter fun e he => by rw [(hx.1 e he).2]
  have hviews : x.views.values.filter
      (fun v => current.bind (fun c => c.views.get? v.name) != some v)
        = (x.views.filter fun key v => current.bind (fun c => c.views.get? key) != some v).values :=
    SortedMap.values_filter fun e he => by rw [(hx.2 e he).2]
  show Schema.mk _ _ _ = _
  rw [htables, hviews]
  -- put in under their own names, the entries come back under their keys
  congr 1
  · exact SortedMap.foldl_insert_values fun e he => (hx.1 e (List.mem_of_mem_filter he)).2
  · exact SortedMap.foldl_insert_values fun e he => (hx.2 e (List.mem_of_mem_filter he)).2

/-- A schema in which something is defined is not empty. -/
theorem isEmpty_eq_false {kind : DefinitionKind} {n v : String} (h : x.text kind n = some v) :
    x.isEmpty = false := by
  have hmap : ∀ {α : Type} {m : SortedMap α} {f : α → String}, (m.get? n).map f = some v →
      m.isEmpty = false := by
    intro α m f h
    obtain ⟨a, ha, -⟩ := Option.map_eq_some_iff.1 h
    exact List.isEmpty_eq_false_iff.2 (List.ne_nil_of_mem (m.get?_eq_some_iff.1 ha))
  cases kind with
  | table => rw [Schema.isEmpty, hmap h]; rfl
  | view => rw [Schema.isEmpty, hmap h, Bool.and_false]

/-- Definitions with the same text are equal, so what differs differs in its text. -/
private theorem map_filter_eq_some_iff {α : Type} {write : α → String}
    (hwrite : Function.Injective write) [DecidableEq α] {a before : Option α} {v : String} :
    (a.filter fun a => before != some a).map write = some v
      ↔ a.map write = some v ∧ before.map write ≠ some v := by
  cases a with
  | none => simp
  | some a =>
    -- values with the same text are the same, so comparing values is comparing texts
    by_cases hsame : before = some a
    · subst hsame
      simp [Option.filter]
    · have hne : (before != some a) = true := bne_iff_ne.2 hsame
      rw [Option.filter_some, if_pos hne]
      refine (and_iff_left_of_imp fun h hbefore => hsame ?_).symm
      obtain ⟨b, rfl, hb⟩ := Option.map_eq_some_iff.1 hbefore
      exact congrArg some (hwrite (hb.trans (Option.some.inj h).symm))

theorem write_table_injective : Function.Injective (Codec.write : Table → String) := fun a b h => by
  simpa using congrArg (Codec.read? (α := Table)) h

theorem write_view_injective : Function.Injective (Codec.write : View → String) := fun a b h => by
  simpa using congrArg (Codec.read? (α := View)) h

/-- **The text of a definition that is to be written** is that of the reload, if it differs. -/
theorem text_additions (hx : x.Keyed) {kind : DefinitionKind} {n v : String} :
    (additions name x (current.get? name)).text kind n = some v
      ↔ x.text kind n = some v ∧ (current.schema name).text kind n ≠ some v := by
  have htables : (current.get? name).bind (fun c => c.tables.get? n)
      = (current.schema name).tables.get? n := by
    unfold schema
    cases current.get? name <;> rfl
  have hviews : (current.get? name).bind (fun c => c.views.get? n)
      = (current.schema name).views.get? n := by
    unfold schema
    cases current.get? name <;> rfl
  -- after that, for either kind, the definitions are filtered by whether they are different
  rw [additions_eq hx]
  cases kind with
  | table =>
    rw [Schema.text, SortedMap.get?_filter, htables]
    exact map_filter_eq_some_iff write_table_injective
  | view =>
    rw [Schema.text, SortedMap.get?_filter, hviews]
    exact map_filter_eq_some_iff write_view_injective

/-- **Definitions are to be written** if the reload has them and the current schemas do not have the
same. -/
theorem mem_toBeWritten_iff (h : reloaded.Keyed) {s : String} {kind : DefinitionKind} {n v : String} :
    (∃ x ∈ toBeWritten reloaded current, x.name = s ∧ x.text kind n = some v)
      ↔ (reloaded.schema s).text kind n = some v
        ∧ (current.schema s).text kind n ≠ some v := by
  constructor
  · rintro ⟨x, hx, rfl, htext⟩
    obtain ⟨e, he, rfl⟩ := List.mem_map.1 (List.mem_filter.1 hx).1
    obtain ⟨-, -, hkeyed⟩ := h e he
    have hname : (additions e.1 e.2 (current.get? e.1)).name = e.1 := by rw [additions_eq hkeyed]
    rw [hname]
    have hschema : reloaded.schema e.1 = e.2 := by
      rw [schema, reloaded.get?_eq_some_iff.2 he]
      rfl
    rw [hschema]
    exact (text_additions hkeyed).1 htext
  · rintro htext
    -- there is a schema of the name, since a definition is in it
    cases hget : reloaded.get? s with
    | none =>
      have hempty : (reloaded.schema s).text kind n = none := by
        rw [schema, hget]
        cases kind <;> rfl
      rw [hempty] at htext
      cases htext.1
    | some x =>
      have he := reloaded.get?_eq_some_iff.1 hget
      obtain ⟨-, -, hkeyed⟩ := h _ he
      have hschema : reloaded.schema s = x := by
        rw [schema, hget]
        rfl
      rw [hschema] at htext
      have hadded : (additions s x (current.get? s)).text kind n = some v := (text_additions hkeyed).2 htext
      refine ⟨_, List.mem_filter.2 ⟨List.mem_map.2 ⟨_, he, rfl⟩, ?_⟩, ?_, hadded⟩
      · rw [isEmpty_eq_false hadded]
        rfl
      · rw [additions_eq hkeyed]

theorem keyed_additions (hx : x.Keyed) (before : Option Schema) :
    (additions name x before).Keyed := by
  rw [additions_eq hx]
  exact ⟨fun t ht => hx.1 t (List.mem_of_mem_filter ht),
    fun v hv => hx.2 v (List.mem_of_mem_filter hv)⟩

theorem Keyed.toBeWritten (h : reloaded.Keyed) :
    ∀ x ∈ toBeWritten reloaded current, x.Keyed := by
  intro x hx
  obtain ⟨e, he, rfl⟩ := List.mem_map.1 (List.mem_filter.1 hx).1
  exact keyed_additions (h e he).2.2 _

/-- **Tables are to be dropped** if the current schemas have them and the reload does not. -/
theorem mem_toBeDropped_iff (h : current.Keyed) {s n : String} :
    (s, n) ∈ toBeDropped reloaded current
      ↔ (current.schema s).tables.contains n = true
        ∧ (reloaded.schema s).tables.contains n = false := by
  have hgone : ∀ s n, (!(reloaded.get? s).any fun x => x.tables.contains n) = true
      ↔ (reloaded.schema s).tables.contains n = false := by
    intro s n
    unfold schema
    cases reloaded.get? s with
    | none => exact iff_of_true rfl rfl
    | some x => exact iff_of_eq (Bool.not_eq_true' _)
  unfold toBeDropped
  rw [List.mem_flatMap]
  constructor
  · rintro ⟨e, he, hmem⟩
    obtain ⟨t, ht, heq⟩ := List.mem_map.1 hmem
    obtain ⟨rfl, rfl⟩ := Prod.mk.inj heq
    obtain ⟨ht, hkeep⟩ := List.mem_filter.1 ht
    obtain ⟨k, hk⟩ := SortedMap.mem_values_iff.1 ht
    -- tables are listed by their names and kept by their keys
    have hname : t.name = k := ((h e he).2.2.1 (k, t) (SortedMap.get?_eq_some_iff _ |>.1 hk)).2
    refine ⟨?_, (hgone _ _).1 hkeep⟩
    rw [schema, current.get?_eq_some_iff.2 he, hname]
    exact SortedMap.contains_iff.2 ⟨t, hk⟩
  · rintro ⟨hcurrent, hreloaded⟩
    -- the table is in one of the current schemas, under its own name
    cases hget : current.get? s with
    | none =>
      rw [schema, hget] at hcurrent
      cases hcurrent
    | some x =>
      rw [schema, hget] at hcurrent
      obtain ⟨t, ht⟩ := SortedMap.contains_iff.1 hcurrent
      have he := current.get?_eq_some_iff.1 hget
      have hname : t.name = n := ((h _ he).2.2.1 (n, t) (SortedMap.get?_eq_some_iff _ |>.1 ht)).2
      refine ⟨(s, x), he, List.mem_map.2 ⟨t, List.mem_filter.2 ⟨?_, ?_⟩, by rw [hname]⟩⟩
      · exact SortedMap.mem_values_iff.2 ⟨n, ht⟩
      · rw [hname]
        exact (hgone s n).2 hreloaded

end Schemas

/-! ### Changes of definitions -/

namespace Stored

variable {db : String} {x : Schema} {kind : DefinitionKind} {kinds : List DefinitionKind}
  {reloaded current : Schemas} {p : Place} {text : Option String}

/-- The definitions of one kind in a schema, each with its name and its text. -/
def texts (x : Schema) : DefinitionKind → List (String × String)
  | .table => x.tables.values.map fun t => (t.name, Codec.write t)
  | .view => x.views.values.map fun v => (v.name, Codec.write v)

/-- The changes of the definitions of a schema that are written. -/
def changesOf (db : String) (x : Schema) (kind : DefinitionKind) : List (Place × Option String) :=
  (texts x kind).map fun e => (⟨db, x.name, kind, e.1⟩, some e.2)

/-- The changes of the tables that are dropped. -/
def dropChanges (db : String) (reloaded current : Schemas) : List (Place × Option String) :=
  (Schemas.toBeDropped reloaded current).map fun t => (⟨db, t.1, .table, t.2⟩, none)

/-- **The changes of a reload**: definitions of some kinds are written, and then tables dropped. -/
def reloadChanges (db : String) (kinds : List DefinitionKind) (reloaded current : Schemas) :
    List (Place × Option String) :=
  (Schemas.toBeWritten reloaded current).flatMap (fun x => kinds.flatMap (changesOf db x))
    ++ dropChanges db reloaded current

/-- Definitions under their own names are listed with their texts. -/
theorem mem_texts_iff (hx : x.Keyed) {n v : String} :
    (n, v) ∈ texts x kind ↔ x.text kind n = some v := by
  -- tables and views go the same way, so it is shown for any map with names and texts
  have hmem : ∀ {α : Type} {m : SortedMap α} {name : α → String} {write : α → String},
      (∀ e ∈ m.entries, Path.IsName e.1 ∧ name e.2 = e.1) →
        ((n, v) ∈ (m.values.map fun a => (name a, write a)) ↔ (m.get? n).map write = some v) := by
    intro α m name write hkeyed
    rw [List.mem_map, Option.map_eq_some_iff]
    constructor
    · rintro ⟨a, ha, heq⟩
      obtain ⟨rfl, rfl⟩ := Prod.mk.inj heq
      obtain ⟨k, hk⟩ := SortedMap.mem_values_iff.1 ha
      rw [(hkeyed (k, a) (m.get?_eq_some_iff.1 hk)).2]
      exact ⟨a, hk, rfl⟩
    · rintro ⟨a, ha, rfl⟩
      exact ⟨a, SortedMap.mem_values_iff.2 ⟨n, ha⟩,
        by rw [(hkeyed (n, a) (m.get?_eq_some_iff.1 ha)).2]⟩
  cases kind with
  | table => exact hmem hx.1
  | view => exact hmem hx.2

/-- The changes of the definitions of one kind. -/
theorem mem_changesOf_iff (hx : x.Keyed) :
    (p, text) ∈ changesOf db x kind
      ↔ p.db = db ∧ p.schema = x.name ∧ p.kind = kind ∧ (x.text kind p.name).map some = some text := by
  obtain ⟨pdb, s, pkind, n⟩ := p
  rw [changesOf, List.mem_map]
  constructor
  · -- a change has its place from the schema, and its text from the definition
    rintro ⟨⟨n', v⟩, hv, heq⟩
    obtain ⟨hplace, rfl⟩ := Prod.mk.inj heq
    obtain ⟨rfl, rfl, rfl, rfl⟩ := Place.mk.inj hplace
    rw [(mem_texts_iff hx).1 hv]
    exact ⟨rfl, rfl, rfl, rfl⟩
  · rintro ⟨rfl, rfl, rfl, htext⟩
    obtain ⟨v, hv, rfl⟩ := Option.map_eq_some_iff.1 htext
    exact ⟨(n, v), (mem_texts_iff hx).2 hv, rfl⟩

/-- The changes that are written. -/
theorem mem_written_iff (h : reloaded.Keyed) :
    (p, text) ∈ ((Schemas.toBeWritten reloaded current).flatMap fun x => kinds.flatMap (changesOf db x))
      ↔ p.db = db ∧ p.kind ∈ kinds ∧ text ≠ none
        ∧ text = (reloaded.schema p.schema).text p.kind p.name
        ∧ text ≠ (current.schema p.schema).text p.kind p.name := by
  simp only [List.mem_flatMap]
  constructor
  · rintro ⟨x, hx, kind, hkind, hmem⟩
    -- what is written is new or different, by the choice of what is to be written
    obtain ⟨hdb, hschema, rfl, htext⟩ := (mem_changesOf_iff (h.toBeWritten x hx)).1 hmem
    obtain ⟨v, hv, rfl⟩ := Option.map_eq_some_iff.1 htext
    obtain ⟨hreloaded, hcurrent⟩ := (Schemas.mem_toBeWritten_iff h).1 ⟨x, hx, hschema.symm, hv⟩
    exact ⟨hdb, hkind, Option.some_ne_none v, hreloaded.symm, hcurrent.symm⟩
  · rintro ⟨hdb, hkind, hsome, hreloaded, hcurrent⟩
    obtain ⟨v, rfl⟩ := Option.ne_none_iff_exists'.1 hsome
    obtain ⟨x, hx, hschema, hv⟩ :=
      (Schemas.mem_toBeWritten_iff h).2 ⟨hreloaded.symm, hcurrent.symm⟩
    refine ⟨x, hx, p.kind, hkind, (mem_changesOf_iff (h.toBeWritten x hx)).2 ?_⟩
    exact ⟨hdb, hschema.symm, rfl, by rw [hv]; rfl⟩

/-- The changes of tables that are dropped. -/
theorem mem_dropChanges_iff (h : current.Keyed) :
    (p, text) ∈ dropChanges db reloaded current
      ↔ p.db = db ∧ p.kind = .table ∧ text = none
        ∧ text = (reloaded.schema p.schema).text p.kind p.name
        ∧ text ≠ (current.schema p.schema).text p.kind p.name := by
  obtain ⟨pdb, s, kind, n⟩ := p
  have htable : ∀ m : Schemas, (m.schema s).tables.contains n = true
      ↔ none ≠ (m.schema s).text .table n := fun m => by
    rw [ne_comm, ← Option.isSome_iff_ne_none]
    exact (Option.isSome_map).symm ▸ Iff.rfl
  simp only [dropChanges, List.mem_map]
  constructor
  · rintro ⟨⟨s', n'⟩, hmem, heq⟩
    obtain ⟨hplace, rfl⟩ := Prod.mk.inj heq
    obtain ⟨rfl, rfl, rfl, rfl⟩ := Place.mk.inj hplace
    obtain ⟨hcurrent, hreloaded⟩ := (Schemas.mem_toBeDropped_iff h).1 hmem
    refine ⟨rfl, rfl, rfl, ?_, (htable current).1 hcurrent⟩
    exact not_ne_iff.1 fun hne => absurd ((htable reloaded).2 hne) (Bool.eq_false_iff.1 hreloaded)
  · rintro ⟨rfl, rfl, rfl, hreloaded, hcurrent⟩
    refine ⟨(s, n), (Schemas.mem_toBeDropped_iff h).2 ⟨(htable current).2 hcurrent, ?_⟩, rfl⟩
    exact Bool.eq_false_iff.2 fun hcontains => (htable reloaded).1 hcontains hreloaded

/-- **Whether a reload changes what is defined at a place**: it differs, and it is a table, or it is
written at all. -/
def ReloadChanges (kinds : List DefinitionKind) (reloaded current : Schemas) (p : Place) : Prop :=
  (reloaded.schema p.schema).text p.kind p.name ≠ (current.schema p.schema).text p.kind p.name
    ∧ (p.kind = .table ∨ p.kind ∈ kinds ∧ (reloaded.schema p.schema).text p.kind p.name ≠ none)

/-- **A change leads to what the reload has.** -/
theorem mem_reloadChanges_iff (hreloaded : reloaded.Keyed) (hcurrent : current.Keyed)
    (htable : .table ∈ kinds) :
    (p, text) ∈ reloadChanges db kinds reloaded current
      ↔ p.db = db ∧ text = (reloaded.schema p.schema).text p.kind p.name
        ∧ ReloadChanges kinds reloaded current p := by
  rw [reloadChanges, List.mem_append, mem_written_iff hreloaded, mem_dropChanges_iff hcurrent]
  constructor
  · rintro (⟨hdb, hkind, hsome, rfl, hne⟩ | ⟨hdb, hkind, -, rfl, hne⟩)
    · exact ⟨hdb, rfl, hne, .inr ⟨hkind, hsome⟩⟩
    · exact ⟨hdb, rfl, hne, .inl hkind⟩
  · rintro ⟨hdb, rfl, hne, hkind⟩
    -- what the reload does not have is dropped, what it has is written
    by_cases hnone : (reloaded.schema p.schema).text p.kind p.name = none
    · have hkind : p.kind = .table := hkind.resolve_right fun h => h.2 hnone
      exact .inr ⟨hdb, hkind, hnone, rfl, hne⟩
    · have hkind : p.kind ∈ kinds := hkind.elim (fun h => h ▸ htable) And.left
      exact .inl ⟨hdb, hkind, hnone, rfl, hne⟩

end Stored

end ClusterCatalog
