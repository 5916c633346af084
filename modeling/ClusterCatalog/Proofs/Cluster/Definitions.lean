import ClusterCatalog.Proofs.Cluster.Reload
import ClusterCatalog.Proofs.Cluster.Retry
import ClusterCatalog.Proofs.Store.Definitions

/-!
# What a change of storage units does to stored schemas

The store may be ahead of the current generation: a table may have been dropped from it, or a schema
added, which the generation knows nothing about yet. A change of storage units is worked out from the
generation. Does it disturb the schemas that are stored?

Units that are registered or altered do not. The schemas before and after the change are compared with
each other and not with the store, and as they are the same, nothing is written. Units that are removed
do: after each of them the tables of all schemas of the generation are written anew, over the stored
ones. A table that was dropped from the store is brought back, one that was altered there is reset, and
only what the generation does not know stays as it is (`UnitOperation.definitions_after`).

* `Stored.Overwritten` — the tables of schemas have been written over the stored ones.
* `Outline` — what the argument needs to know of a node: what it stores, and the schemas in its current
  generation. Everything else, also whether a database is kept under its own name, is left open.
-/

namespace ClusterCatalog

open Plan Repository

/-! ### Schemas that are written over the stored ones -/

namespace Stored

variable {db : String} {m : Schemas} {r r₁ r₂ r' : Repository}

/-- **The stored definitions are the same**: the same schemas are listed, and each of them is loaded
with the same tables and views, or cannot be loaded for the same reason. -/
structure SameDefinitions (db : String) (r r' : Repository) : Prop where
  names : ((schemaNames db).run answer r').1 = ((schemaNames db).run answer r).1
  schemas : ∀ s, ((loadSchema db s).run answer r').1 = ((loadSchema db s).run answer r).1

/-- **Schemas have been laid over the stored ones**: their tables stand over the tables that were
stored, whose schemas are listed as before and have the same views. -/
structure SchemasLaidOver (db : String) (m : Schemas) (r r' : Repository) : Prop where
  names : ∃ before after, (schemaNames db).run answer r = (.ok before, r)
    ∧ (schemaNames db).run answer r' = (.ok after, r')
    ∧ ∀ s, s ∈ after ↔ s ∈ before ∨ m.contains s = true
  tables : ∀ s, Path.IsName s → ∀ tables, (loadTables db s).run answer r' = (.ok tables, r')
    ↔ Item.LaidOver r (Path.table db s) (m.tables s) tables
  views : ∀ s, Path.IsName s →
    ((loadViews db s).run answer r').1 = ((loadViews db s).run answer r).1

/-- Stores that agree below the schemas of a database load the same definitions of it. -/
theorem SameDefinitions.of_sameAt (h : SameAt (Path.schemas db) r r') : SameDefinitions db r r' := by
  have hviews : ∀ s, (loadViews db s).Uses (StoreRequest.Concerns (Path.views db s)) := fun s =>
    uses_loadItems (by decide) fun _ => (Path.isAbove_child _ _).covers
  refine ⟨(Access.run_of_sameAt (Access.uses_children_self (by decide)) h).1, fun s => ?_⟩
  have hschema : (loadSchema db s).Uses (StoreRequest.Concerns (Path.schemas db)) := by
    refine Uses.seq ?_ fun tables => Uses.seq ?_ fun views => (trivial : Plan.Uses _ (pure _))
    · exact Access.uses_mono (uses_loadTables db s) (covers_tables db s)
    · exact Access.uses_mono (hviews s) ((covers_schema db s).trans (Path.isAbove_child _ _).covers)
  exact (Access.run_of_sameAt hschema h).1

/-- **The tables of schemas have been written**: every table shows its definition, and each of the
schemas has a node. The other schemas, and all views, are as they were. -/
structure Overwritten (db : String) (m : Schemas) (r r' : Repository) : Prop where
  changed : Changed db (m.values.flatMap fun x => changesOf db x .table) r r'
  there : ∀ s, m.contains s = true → (r'.query (Path.schema db s)).isSome
  others : ∀ s, Path.IsName s → m.contains s = false → SameAt (Path.schema db s) r r'

theorem Changed.of_sameAt (h : SameAt (Path.schemas db) r r') : Changed db [] r r' := by
  intro p hp q hq
  obtain ⟨rfl, -, -⟩ := hp
  exact h q ((covers_schema p.db p.schema).trans (p.schema_covers_path.trans hq))

namespace Overwritten

/-- Tables that are written again are the same. -/
theorem trans (h : Overwritten db m r r₁) (h' : Overwritten db m r₁ r₂) : Overwritten db m r r₂ where
  changed p hp := by
    have hchanged := h.changed.trans h'.changed p hp
    rwa [List.reverse_append, List.lookup_append, Option.or_self] at hchanged
  there := h'.there
  others s hs hnot := (h.others s hs hnot).trans (h'.others s hs hnot)

/-- What happens elsewhere before and after the tables are written is of no account. -/
theorem congr (hbefore : SameAt (Path.schemas db) r r₁) (h : Overwritten db m r₁ r₂)
    (hafter : SameAt (Path.schemas db) r₂ r') : Overwritten db m r r' where
  changed := by
    have hchanged := ((Changed.of_sameAt hbefore).trans h.changed).trans (.of_sameAt hafter)
    rwa [List.nil_append, List.append_nil] at hchanged
  there s hs := by
    rw [hafter _ (covers_schema db s)]
    exact h.there s hs
  others s hs hnot := by
    have hschema : ∀ {r r' : Repository}, SameAt (Path.schemas db) r r' →
        SameAt (Path.schema db s) r r' := fun h q hq => h q ((covers_schema db s).trans hq)
    exact ((hschema hbefore).trans (h.others s hs hnot)).trans (hschema hafter)

/-- **What is loaded** after the tables of schemas were written. -/
theorem schemasLaidOver (hm : m.Keyed) (h : Overwritten db m r r') : SchemasLaidOver db m r r' where
  names := by
    have hnames : ∀ r : Repository, (schemaNames db).run answer r
        = (.ok (r.children (Path.schemas db)), r) := fun r =>
      (Access.reads_children (Path.schemas db)).run
    refine ⟨_, _, hnames r, hnames r', fun s => ?_⟩
    rw [mem_schemaNames_iff, mem_schemaNames_iff]
    -- a schema that was written is listed in any case, and another one if it was before
    cases hs : m.contains s with
    | true =>
      obtain ⟨x, hx⟩ := SortedMap.contains_iff.1 hs
      exact iff_of_true ⟨(hm _ (m.get?_eq_some_iff.1 hx)).1, h.there s hs⟩ (.inr rfl)
    | false =>
      rw [or_iff_left Bool.false_ne_true]
      exact and_congr_right fun hname => by rw [h.others s hname hs _ (.refl _)]
  tables s hs tables := by
    refine run_loadTables_iff fun n hn => ?_
    have hturned := h.changed ⟨db, s, .table, n⟩ ⟨rfl, hs, hn⟩
    rw [lookup_tableChanges hm, if_pos rfl, Schema.text] at hturned
    have htables : (m.schema s).tables = m.tables s := by
      unfold Schemas.schema Schemas.tables
      cases m.get? s <;> rfl
    rw [htables, Option.map_map] at hturned
    exact hturned
  views s hs := by
    -- no view is among the definitions that are written
    have hsame : ∀ n, Path.IsName n → SameAt (Path.view db s n) r r' := by
      intro n hn
      have hturned := h.changed ⟨db, s, .view, n⟩ ⟨rfl, hs, hn⟩
      rw [lookup_tableChanges hm, if_neg (by decide)] at hturned
      exact hturned
    rw [loadViews, (reads_loadItems r' _ _).run, (reads_loadItems r _ _).run]
    exact itemsIn_congr (Catalogue.below_node db s .view) hsame

end Overwritten

/-- Writing the tables of all schemas changes those tables. -/
theorem makes_alterSchemasTables (hm : m.Keyed) :
    Makes db (m.values.flatMap fun x => changesOf db x .table)
      (m.values.forM (alterSchemaTables db)) := by
  refine Makes.forM fun x hx => ?_
  have hmakes : Makes db _ (alterSchemaTables db x) :=
    makes_alterSchemaTables (hm.of_mem_values hx).2.1
  rwa [List.flatMap_singleton] at hmakes

/-- Writing the tables of all schemas creates the schemas: each of them in its own round, and the other
rounds spare it. -/
theorem creates_alterSchemasTables (hm : m.Keyed) {s : String} (hs : m.contains s = true) :
    Access.Creates (Path.schema db s) (m.values.forM (alterSchemaTables db)) := by
  obtain ⟨x, hx⟩ := SortedMap.contains_iff.1 hs
  have hmem : x ∈ m.values := SortedMap.mem_values_iff.2 ⟨s, hx⟩
  obtain ⟨hname, hxname, -⟩ := hm (s, x) (m.get?_eq_some_iff.1 hx)
  obtain rfl : x.name = s := hxname
  refine Access.Creates.forM (fun y hy => ?_) ⟨x, hmem, ?_⟩
  · exact (uses_alterSchemaTables db y).mono fun _ => spares_schema hname (hm.of_mem_values hy).1
  · exact (creates_addSchema x.name).seq_left fun _ =>
      (uses_persistTables db x.name _).mono fun _ => spares_schema hname hname

/-- Writing the tables of all schemas leaves the other schemas alone. -/
theorem keeps_sameAt_alterSchemasTables (hm : m.Keyed) (r : Repository) :
    (m.values.forM (alterSchemaTables db)).Keeps unsure (fun _ r' =>
      ∀ root, (∃ s, Path.IsName s ∧ m.contains s = false ∧ root = Path.schema db s) →
        SameAt root r r') r := by
  have huses : (m.values.forM (alterSchemaTables db)).Uses fun call =>
      ∃ x ∈ m.values, StoreRequest.Concerns (Path.schema db x.name) call :=
    Uses.forM fun x hx => (uses_alterSchemaTables db x).mono fun _ hcall => ⟨x, hx, hcall⟩
  refine Access.keeps_sameAt huses ?_ r
  rintro call root ⟨x, hx, hcall⟩ ⟨s, hs, hnot, rfl⟩
  obtain ⟨hname, -, hget⟩ := hm.of_mem_values hx
  -- each call concerns a schema of the map, and a name outside the map is none of theirs
  refine ⟨_, Place.apart_schema_of_ne hname hs ?_, hcall⟩
  rintro rfl
  rw [SortedMap.contains, hget] at hnot
  cases hnot

/-- **Writing the tables of all schemas** writes them over the stored ones. -/
theorem keeps_alterSchemasTables (hm : m.Keyed) (r : Repository) :
    (m.values.forM (alterSchemaTables db)).Keeps unsure
      (fun result r' => result = .ok () → Overwritten db m r r') r := by
  have hmakes : Makes db _ (m.values.forM (alterSchemaTables db)) := makes_alterSchemasTables hm
  have hthere : ∀ s, (m.values.forM (alterSchemaTables db)).Keeps unsure (fun result r' =>
      result = .ok () → m.contains s = true → (r'.query (Path.schema db s)).isSome) r := by
    intro s
    -- the node of a schema is there at the end because its own turn has written to it
    cases hs : m.contains s with
    | true => exact (creates_alterSchemasTables hm hs r).mono fun _ _ h hresult _ => h () hresult
    | false => exact (hmakes r).mono fun _ _ _ _ h => absurd h Bool.false_ne_true
  refine (((hmakes r).and (Keeps.forall hthere)).and (keeps_sameAt_alterSchemasTables hm r)).mono
    fun result r' h hresult => ?_
  obtain ⟨⟨hchanged, hnode⟩, hsame⟩ := h
  exact ⟨hchanged hresult, fun s hs => hnode s hresult hs, fun s hs hnot =>
    hsame _ ⟨s, hs, hnot, rfl⟩⟩

end Stored

/-! ### One change, as it is written -/

namespace UnitChange

variable {db : String} {m : Schemas} {before reload : Generation}

/-- Statistics are no part of the schemas. -/
theorem keeps_schemas_persistStatistics (r : Repository) :
    (persistStatistics db before reload).Keeps unsure
      (fun _ r' => SameAt (Path.schemas db) r r') r := by
  have hapart : (Path.child Path.statisticsRoot db).Apart (Path.schemas db) :=
    (Path.apart_statisticsRoot_database db).mono (Path.isAbove_child _ _).covers
      (Path.isAbove_child _ _).covers
  exact (Access.keeps_sameAt_within (uses_persistStatistics db before reload) r).mono
    fun _ _ h => h _ hapart

/-- Units are no part of the schemas. -/
theorem keeps_schemas_of_units {α : Type} {p : Access α}
    (h : p.Uses (StoreRequest.Concerns (Path.storageUnits db))) (r : Repository) :
    p.Keeps unsure (fun _ r' => SameAt (Path.schemas db) r r') r := by
  have hapart : (Path.child (Path.database db) "data_sources").Apart (Path.schemas db) :=
    Path.apart_child (by decide) (by decide) (by decide)
  refine (Access.keeps_sameAt_within h r).mono fun _ _ h => h _ ?_
  exact hapart.mono (Path.isAbove_child _ _).covers (.refl _)

/-- **Writing new or altered units** leaves the schemas alone: compared with themselves, they have
nothing to be written. -/
theorem keeps_schemas_present (hm : m.SelfNamed) (hbefore : before.schemas db = m)
    (hreload : reload.schemas db = m) (units : SortedMap PoolProperties) (r : Repository) :
    (Stored.persistUnits db units >>= fun switches => Item.commit switches >>= fun _ =>
      afterAlteration db before reload).Keeps unsure
        (fun _ r' => SameAt (Path.schemas db) r r') r := by
  have hunits : (Stored.persistUnits db units >>= Item.commit).Uses
      (StoreRequest.Concerns (Path.storageUnits db)) :=
    Item.uses_replace fun e _ => (Path.isAbove_child (Path.storageUnits db) e.1).covers
  rw [← bind_assoc]
  refine (keeps_schemas_of_units hunits r).bind (fun _ r₁ h₁ => ?_) fun _ _ h => h
  unfold afterAlteration
  rw [hbefore, hreload, Stored.persistReloadAltered_self hm]
  exact (keeps_schemas_persistStatistics r₁).bind (fun _ _ h => h₁.trans h) fun _ _ h => h₁.trans h

/-- **Writing the end of a unit** writes the tables of all schemas over the stored ones. -/
theorem keeps_overwritten_unregister (hm : m.Keyed) (hbefore : before.schemas db = m)
    (hreload : reload.schemas db = m) (unit : String) (r : Repository) :
    ((unregister unit).persist db before reload).Keeps unsure
      (fun result r' => result = .ok () → Stored.Overwritten db m r r') r := by
  have hdelete : (Stored.deleteUnit db unit).Uses (StoreRequest.Concerns (Path.storageUnits db)) :=
    Access.uses_delete (Path.isAbove_child _ _)
  refine (keeps_schemas_of_units hdelete r).bind (fun _ r₁ h₁ => ?_) fun _ _ _ h => by cases h
  unfold afterRemoval
  rw [keeps_bind, keeps_ofExcept]
  cases hdatabase : reload.database db with
  | error e => exact fun h => by cases h
  | ok database =>
    have hschemas : database.schemas = m := (Generation.schemas_of_database hdatabase).symm.trans hreload
    show (database.schemas.values.forM (Stored.alterSchemaTables db) >>= _).Keeps _ _ _
    rw [hschemas]
    refine (Stored.keeps_alterSchemasTables hm r₁).bind (fun _ r₂ h₂ => ?_) fun _ _ _ h => by cases h
    -- the generation before and the reloaded one have the same schemas, so nothing is dropped
    rw [hbefore, hreload, Stored.persistReloadDropped_self hm.selfNamed]
    refine (keeps_schemas_persistStatistics r₂).bind (fun _ r₃ h₃ _ => ?_) fun _ _ _ h => by cases h
    exact (h₂ rfl).congr h₁ h₃

end UnitChange

/-! ### The outline of a database -/

/-- **The outline of a database**: what the node stores, and the schemas that its current generation
has of the database. -/
structure Outline where
  store : Repository
  schemas : Schemas

/-- The outline of a database on a stage. -/
def Stage.outline (db : String) (s : Stage) : Outline := ⟨s.repository, s.generation.schemas db⟩

/-- **The terms of an outline.** Calls of the repository may be refused, and anything else may fail. The
generations that are seen have the schemas of the outline; in return, a database that is installed has
them, too. -/
def outlineTerms (db : String) : Terms clusterInterface Outline where
  Owed
    | .build name _ _ _, _ => name = db
    | .installDatabase d, s => d.schemas = s.schemas
    | _, _ => True
  Answers
    | .store call, s, reply, s' => ∃ store, unsure.Answers call s.store reply store ∧ s' = { s with store }
    | .current, s, g, s' => g.schemas db = s.schemas ∧ s' = s
    | .build _ _ _ before, s, reply, s' =>
      (∀ g, reply = .ok g → g.schemas db = before.schemas db) ∧ s' = s
    | _, s, _, s' => s' = s

/-- A database that is put into a generation leaves the schemas of all databases alone if it has those
that its name has. -/
theorem Generation.schemas_of_succeededBy {g g' : Generation} {d : Database} {db : String}
    (h : g.succeededBy d = .ok g') (hd : d.name = db → d.schemas = g.schemas db) :
    g'.schemas db = g.schemas db := by
  unfold Generation.schemas at hd ⊢
  rw [databases_of_succeededBy h, SortedMap.get?_insert]
  split
  · rename_i hname
    exact hd hname.symm
  · rfl

/-- **A change of resources** keeps the schemas. -/
theorem ResourceDiff.schemas_of_rebuild {diff : ResourceDiff} {db : String} {isNew : Bool}
    {before g : Generation} (h : diff.rebuild db isNew before = .ok g) :
    g.schemas db = before.schemas db := by
  unfold rebuild at h
  split at h
  · rename_i database hget
    -- the schemas of the entry are those of the database that was found
    refine Generation.schemas_of_succeededBy h fun _ => ?_
    rw [Generation.schemas, hget]
    rfl
  · rename_i hget
    split at h
    · -- a database that was not there has none, and gets none
      refine Generation.schemas_of_succeededBy h fun _ => ?_
      rw [Generation.schemas, hget]
      rfl
    · cases h

/-- **A stage answers on these terms.** -/
theorem Stage.answer_outline (db : String) (r : ClusterRequest) (s : Stage)
    (howed : (outlineTerms db).Owed r (s.outline db)) :
    (outlineTerms db).Answers r (s.outline db) (Stage.answer r s).1 ((Stage.answer r s).2.outline db) := by
  have hled := s.leadsTo_answer (fun _ => False) r
  generalize Stage.answer r s = answered at hled ⊢
  cases hled with
  | answered call =>
    refine ⟨_, s.answerStore_answers call, ?_⟩
    show (⟨_, (answerStore call s).2.generation.schemas db⟩ : Outline) = _
    rw [(s.answerStore_frame call).1]
    rfl
  | refused call he => exact he.elim
  | current => exact ⟨rfl, rfl⟩
  | built name isNew diff before =>
    obtain rfl : name = db := howed
    exact ⟨fun _ hg => ResourceDiff.schemas_of_rebuild hg, rfl⟩
  | notBuilt name isNew diff before e => exact ⟨fun _ hg => (by cases hg), rfl⟩
  | @installed d g hg =>
    -- the schemas that are put in are those that the database has
    show (⟨_, g.schemas db⟩ : Outline) = _
    rw [Generation.schemas_of_succeededBy hg fun _ => howed]
    rfl
  | _ => rfl

namespace Outline

variable {α : Type} {db : String} {s : Outline}

/-- An operation on the repository changes what is stored only. -/
theorem keeps_access {post : Except Failure α → Outline → Prop} {p : Access α} :
    (Cluster.access p).Keeps (outlineTerms db) post s
      ↔ p.Keeps unsure (fun r store => post r { s with store }) s.store := by
  unfold Cluster.access
  induction p generalizing s with
  | done a => exact Iff.rfl
  | stop f => exact Iff.rfl
  | ask r k ih =>
    refine and_congr_right fun _ => ⟨fun h reply store hreply => ?_, ?_⟩
    · exact (ih reply).1 (h reply { s with store } ⟨store, hreply, rfl⟩)
    · rintro h reply s' ⟨store, hreply, rfl⟩
      exact (ih reply).2 (h reply store hreply)

/-- Requests that deal with pools only leave the outline alone. -/
theorem keeps_passive {post : Except Failure α → Prop} {p : Cluster α}
    (h : p.Keeps (.any ClusterRequest.IsPassive) (fun r _ => post r) ()) :
    p.Keeps (outlineTerms db) (fun r s' => s' = s ∧ post r) s := by
  refine Keeps.of_any (R := fun s s' => s' = s) h (fun _ => rfl) (fun _ _ _ h h' => h'.trans h)
    (fun r s hr => ?_) s
  cases r with
  | store call =>
    cases call with
    -- a warning is the only call of the repository that is passive, and it changes nothing
    | warn w =>
      refine ⟨trivial, ?_⟩
      rintro reply s' ⟨store, ⟨refusal, -, hanswer⟩, rfl⟩
      cases refusal <;> cases hanswer <;> rfl
    | _ => exact hr.elim
  | openPool unit properties => exact ⟨trivial, fun _ _ h => h⟩
  | retire policy pools => exact ⟨trivial, fun _ _ h => h⟩
  | _ => exact hr.elim

end Outline

/-! ### Changes and operations -/

section

variable {db : String} {s : Outline} {change : UnitChange} {R : Repository → Repository → Prop}

/-- **Applying a change** leads to what writing it leads to, and puts a database with the same schemas
into the generation. -/
theorem UnitChange.keeps_apply_outline {before : Generation} {diff : ResourceDiff}
    (hbefore : before.schemas db = s.schemas)
    (hpersist : ∀ reload, reload.schemas db = s.schemas →
      (change.persist db before reload).Keeps unsure (fun result r' => result = .ok () → R s.store r')
        s.store) :
    (change.apply db before diff).Keeps (outlineTerms db)
      (fun result s' => result = .ok () → s'.schemas = s.schemas ∧ R s.store s'.store) s := by
  refine keeps_apply_of_stages ⟨rfl, ?_⟩
  rintro reply s' ⟨hreply, rfl⟩
  cases reply with
  | error f => exact fun h => by cases h
  | ok reload =>
    -- the reload has the schemas of the generation that it was built from
    have hreload := (hreply reload rfl).trans hbefore
    rw [keeps_ofResult]
    dsimp only
    cases hdatabase : reload.database db with
    | error e => exact fun h => by cases h
    | ok database =>
      dsimp only
      rw [Outline.keeps_access]
      refine (hpersist reload hreload).mono fun result store h => ?_
      cases result with
      | error f => exact fun h => by cases h
      | ok _ =>
        -- what is put in is the database of the reload
        refine ⟨(Generation.schemas_of_database hdatabase).symm.trans hreload, ?_⟩
        rintro reply _ rfl
        cases reply with
        | error f => exact fun h => by cases h
        | ok g => exact fun _ => ⟨rfl, h rfl⟩

namespace Service

variable (service : Service)

/-- **A change leads to what writing it leads to**, and leaves the schemas of the generation as they
are. -/
theorem keeps_switchUnits_of_persist
    (hpersist : ∀ before reload, before.schemas db = s.schemas → reload.schemas db = s.schemas →
      (change.persist db before reload).Keeps unsure (fun result r' => result = .ok () → R s.store r')
        s.store) :
    (service.switchUnits db change).Keeps (outlineTerms db)
      (fun result s' => result = .ok () → s'.schemas = s.schemas ∧ R s.store s'.store) s := by
  refine service.keeps_switchUnits_of_stages ⟨trivial, ?_⟩
  rintro before s' ⟨hbefore, rfl⟩
  rw [keeps_done]
  dsimp only
  -- an operation on a database that is not there fails
  cases before.databases.get? db with
  | none => exact fun h => by cases h
  | some d =>
    refine (Outline.keeps_passive (UnitChange.diff_yields change d.resource)).mono
      fun result s' hdiff => ?_
    -- working out the change has opened pools at most
    obtain ⟨rfl, -⟩ := hdiff
    cases result with
    | error f => exact fun h => by cases h
    | ok diff =>
      refine (UnitChange.keeps_apply_outline hbefore fun reload => hpersist before reload hbefore).mono
        fun result s' h => ?_
      rcases result with (e | _) | _
      · -- whatever becomes of the pools, the error is passed on
        exact ⟨trivial, fun _ _ _ => ⟨trivial, fun _ _ _ h => by cases h⟩⟩
      · exact fun h => by cases h
      · -- the replaced pools are retired
        refine ⟨trivial, ?_⟩
        rintro _ _ rfl
        exact h

/-- **The removals of units**, one after the other: where one of them is stored, they lead to what the
removal of a single one leads to, and else to nothing. -/
theorem keeps_removals_of_persist {m : Schemas} {stored : SortedMap PoolProperties}
    (htrans : ∀ r r₁ r₂, R r r₁ → R r₁ r₂ → R r r₂)
    (hpersist : ∀ unit before reload r, before.schemas db = m → reload.schemas db = m →
      ((UnitChange.unregister unit).persist db before reload).Keeps unsure
        (fun result r' => result = .ok () → R r r') r) (names : List String) (hm : s.schemas = m) :
    (names.forM fun unit => do
      if stored.contains unit then service.switchUnits db (.unregister unit) : Cluster Unit).Keeps
      (outlineTerms db) (fun result s' => result = .ok () →
        (∃ unit ∈ names, stored.contains unit = true) ∧ R s.store s'.store
          ∨ (∀ unit ∈ names, stored.contains unit = false) ∧ s'.store = s.store) s := by
  induction names generalizing s with
  | nil => exact fun _ => .inr ⟨fun _ h => absurd h List.not_mem_nil, rfl⟩
  | cons unit names ih =>
    show ((if stored.contains unit then _ else _ : Cluster Unit) >>= fun _ => names.forM _).Keeps _ _ _
    split
    · -- the unit is removed; the removals after it lead on from there or do nothing
      rename_i hunit
      refine (service.keeps_switchUnits_of_persist fun before reload hbefore hreload =>
        hpersist unit before reload s.store (hbefore.trans hm) (hreload.trans hm)).bind
          (fun _ s₁ h₁ => ?_) fun _ _ _ h => by cases h
      obtain ⟨hschemas, hfirst⟩ := h₁ rfl
      refine (ih (hschemas.trans hm)).mono fun result s₂ h₂ hresult =>
        .inl ⟨⟨unit, List.mem_cons_self, hunit⟩, ?_⟩
      rcases h₂ hresult with ⟨-, hrest⟩ | ⟨-, hsame⟩
      · exact htrans _ _ _ hfirst hrest
      · rw [hsame]
        exact hfirst
    · -- a unit that is not stored is passed over
      rename_i hunit
      refine (ih hm).mono fun result s₂ h₂ hresult => (h₂ hresult).imp ?_ ?_
      · rintro ⟨⟨found, hmem, hcontains⟩, hrest⟩
        exact ⟨⟨found, List.mem_cons_of_mem _ hmem, hcontains⟩, hrest⟩
      · rintro ⟨hnone, hsame⟩
        exact ⟨List.forall_mem_cons.2 ⟨Bool.eq_false_iff.2 hunit, hnone⟩, hsame⟩

/-- **Removing units** leads to what the removal of a single one leads to, if there is one to be
removed, and else does nothing. -/
theorem keeps_unregisterUnits_of_persist (htrans : ∀ r r₁ r₂, R r r₁ → R r₁ r₂ → R r r₂)
    (hpersist : ∀ unit before reload r, before.schemas db = s.schemas → reload.schemas db = s.schemas →
      ((UnitChange.unregister unit).persist db before reload).Keeps unsure
        (fun result r' => result = .ok () → R r r') r) (names : List String) :
    (service.unregisterUnits db names).Keeps (outlineTerms db) (fun result s' => result = .ok () →
      ∃ stored, (Stored.loadUnits db).run answer s.store = (.ok stored, s.store)
        ∧ ((∃ unit ∈ names, stored.contains unit = true) ∧ R s.store s'.store
          ∨ (∀ unit ∈ names, stored.contains unit = false) ∧ s'.store = s.store)) s := by
  unfold unregisterUnits
  rw [keeps_bind, Outline.keeps_access]
  refine Stored.reads_loadUnits s.store db _ _ (fun e _ h => by cases h) ?_
  -- which units are removed depends on the units in the store, so a failure to load them ends it
  cases hstored : Stored.unitsIn s.store db with
  | error f => exact fun h => by cases h
  | ok stored =>
    have hrun : (Stored.loadUnits db).run answer s.store = (.ok stored, s.store) := by
      rw [(Stored.reads_loadUnits s.store db).run, hstored]
    exact (service.keeps_removals_of_persist htrans hpersist names rfl).mono
      fun _ _ h hresult => ⟨stored, hrun, h hresult⟩

/-- **A change that leaves the schemas alone when it is written** leaves the stored definitions the
same. -/
theorem sameDefinitions_switchUnits {stage : Stage}
    (hpersist : ∀ before reload, before.schemas db = stage.generation.schemas db →
      reload.schemas db = stage.generation.schemas db → ∀ r, (change.persist db before reload).Keeps
        unsure (fun _ r' => SameAt (Path.schemas db) r r') r)
    (hok : ((service.switchUnits db change).run Stage.answer stage).1 = .ok ()) :
    Stored.SameDefinitions db stage.repository
      ((service.switchUnits db change).run Stage.answer stage).2.repository := by
  have hkeeps := service.keeps_switchUnits_of_persist (s := stage.outline db)
    (R := fun r r' => SameAt (Path.schemas db) r r') fun before reload hbefore hreload =>
      (hpersist before reload hbefore hreload stage.repository).mono fun _ _ h _ => h
  exact .of_sameAt (hkeeps.run (fun r s => Stage.answer_outline db r s) hok).2

end Service

end

namespace UnitOperation

/-- **An operation removes a unit that is stored.** -/
def Removes (db : String) (r : Repository) (op : UnitOperation) : Prop :=
  ∃ unit ∈ op.removals, ∃ stored, (Stored.loadUnits db).run answer r = (.ok stored, r)
    ∧ stored.contains unit = true

/-- An operation that is not about removals removes nothing. -/
theorem not_removes_of_removals_eq_nil {db : String} {r : Repository} {op : UnitOperation}
    (h : op.removals = []) : ¬ op.Removes db r := by
  rintro ⟨unit, hunit, -⟩
  rw [h] at hunit
  exact List.not_mem_nil hunit

/-- **What an operation on storage units does to the stored schemas.** Whatever is stored, and whichever
calls are refused on the way: if the operation succeeds and has not removed a unit, the stored
definitions are the same as before. If it has removed one, the schemas of the current generation have
been laid over the stored ones. -/
theorem definitions_after (service : Service) (op : UnitOperation) (db : String) (s : Stage)
    (hself : (s.generation.schemas db).SelfNamed)
    (hok : ((op.run service db).run Stage.answer s).1 = .ok ()) :
    let final := ((op.run service db).run Stage.answer s).2.repository
    (¬ op.Removes db s.repository → Stored.SameDefinitions db s.repository final)
      ∧ (op.Removes db s.repository → (s.generation.schemas db).Keyed →
        Stored.SchemasLaidOver db (s.generation.schemas db) s.repository final) := by
  intro final
  cases op with
  | register units =>
    -- a change that adds units writes schemas only where the reload has other ones than before
    refine ⟨fun _ => service.sameDefinitions_switchUnits (fun before reload hbefore hreload => ?_) hok,
      fun h => absurd h (not_removes_of_removals_eq_nil rfl)⟩
    exact UnitChange.keeps_schemas_present hself hbefore hreload units
  | alter units =>
    refine ⟨fun _ => service.sameDefinitions_switchUnits (fun before reload hbefore hreload => ?_) hok,
      fun h => absurd h (not_removes_of_removals_eq_nil rfl)⟩
    exact UnitChange.keeps_schemas_present hself hbefore hreload units
  | unregister units =>
    -- with names that can stand in a path, each removal lays the schemas in memory over the stored ones
    have hkeeps := service.keeps_unregisterUnits_of_persist (s := s.outline db)
      (R := fun r r' => (s.generation.schemas db).Keyed →
        Stored.Overwritten db (s.generation.schemas db) r r')
      (fun _ _ _ h h' hm => (h hm).trans (h' hm)) (fun unit before reload r hbefore hreload => by
        by_cases hm : (s.generation.schemas db).Keyed
        · exact (UnitChange.keeps_overwritten_unregister hm hbefore hreload unit r).mono
            fun _ _ h hresult _ => h hresult
        · exact Access.keeps_of_forall fun _ _ _ h => absurd h hm) units
    obtain ⟨stored, hstored, h⟩ := hkeeps.run (fun r s => Stage.answer_outline db r s) hok
    change (Stored.loadUnits db).run answer s.repository = (.ok stored, s.repository) at hstored
    -- either one of the units was in the store and has been removed, or none was
    rcases h with ⟨⟨unit, hunit, hcontains⟩, hwritten⟩ | ⟨hnone, hsame⟩
    · refine ⟨fun h => absurd ⟨unit, hunit, stored, hstored, hcontains⟩ h, fun _ hm => ?_⟩
      exact (hwritten hm).schemasLaidOver hm
    · change final = s.repository at hsame
      rw [hsame]
      refine ⟨fun _ => .of_sameAt (.refl _ _), ?_⟩
      rintro ⟨unit, hunit, stored', hstored', hcontains⟩
      obtain rfl : stored' = stored :=
        Except.ok.inj (Prod.mk.inj (hstored'.symm.trans hstored)).1
      exact absurd hcontains (Bool.eq_false_iff.1 (hnone unit hunit))

/-- A node that has not caught up with its store. There is a unit; the generation has some schemas, and
stored are some tables of a schema `s`. -/
def lagging (schemas : Schemas) (tables : List Table) : Stage :=
  let properties : PoolProperties := ⟨"u", "n", "", ∅⟩
  let database : Database :=
    { name := "d"
      resource := ⟨.ofList [("a", 0)], Resource.unitsOf (.ofList [("a", properties)])⟩
      schemas }
  { repository := .memory ⟨.ofList
      (Item.firstRevision (Path.storageUnit "d" "a") (Codec.write properties)
        ++ tables.flatMap fun t => Item.firstRevision (Path.table "d" "s" t.name) (Codec.write t))⟩
    generation := { databases := Generation.databasesOf [database] }
    pools := [⟨"a", "u", 0, false, false⟩] }

/-- A schema with one table. -/
def oneTable : Schemas := .ofList [("s", .ofTables "s" [{ name := "t" }])]

/-- A service that waits for nothing. -/
def plainService : Service := ⟨0, ⟨1, 1⟩, fun _ _ => .done ()⟩

/-- The schema of the generation is laid over one that is stored without its table. -/
theorem definitions_after_removal :
    let final := ((unregister ["a"]).run plainService "d").run Stage.answer (lagging oneTable [])
    final.1 = .ok ()
      ∧ Stored.SchemasLaidOver "d" oneTable (lagging oneTable []).repository final.2.repository := by
  have hschemas : (lagging oneTable []).generation.schemas "d" = oneTable ∧ oneTable.SelfNamed
      ∧ oneTable.Keyed := by
    decide +kernel
  obtain ⟨hcurrent, hself, hkeyed⟩ := hschemas
  have hok : (((unregister ["a"]).run plainService "d").run Stage.answer (lagging oneTable [])).1
      = .ok () := by
    decide +kernel
  have hunits : Stored.unitsIn (lagging oneTable []).repository "d"
      = .ok (.ofList [("a", ⟨"u", "n", "", ∅⟩)]) := by
    decide +kernel
  -- unit a is in the store, so it is removed
  have hremoves : (unregister ["a"]).Removes "d" (lagging oneTable []).repository := by
    have hloaded := (Stored.reads_loadUnits (lagging oneTable []).repository "d").run
    rw [hunits] at hloaded
    exact ⟨"a", List.mem_singleton_self _, _, hloaded, by decide +kernel⟩
  have hafter := definitions_after plainService (unregister ["a"]) "d" (lagging oneTable [])
    (hcurrent ▸ hself) hok
  rw [hcurrent] at hafter
  exact ⟨hok, hafter.2 hremoves hkeyed⟩

/-- **Stored definitions do not always stay the same.** The removal of a unit brings back a table that
was dropped from the store. It takes a schema whose name has a slash for one within another, so that
this other one is listed. And a registration drops a table that the generation has under a name which
is not its own. -/
theorem definitions_not_always_kept :
    let dropped := lagging oneTable []
    let slashed := lagging (.ofList [("x/y", { name := "x/y" })]) []
    let misnamed := lagging (.ofList [("s", { name := "s", tables := .ofList [("t", { name := "u" })] })])
      [{ name := "u" }]
    let remove := (unregister ["a"]).run plainService "d"
    let add := (register ∅).run plainService "d"
    let tables := fun stage : Stage => ((Stored.loadTables "d" "s").run answer stage.repository).1
    let names := fun stage : Stage => ((Stored.schemaNames "d").run answer stage.repository).1
    ((remove.run Stage.answer dropped).1 = .ok () ∧ tables dropped = .ok ∅
        ∧ tables (remove.run Stage.answer dropped).2 = .ok (oneTable.tables "s"))
      ∧ ((remove.run Stage.answer slashed).1 = .ok () ∧ names slashed = .ok []
        ∧ names (remove.run Stage.answer slashed).2 = .ok ["x"])
      ∧ (add.run Stage.answer misnamed).1 = .ok ()
        ∧ tables misnamed = .ok (.ofList [("u", { name := "u" })])
        ∧ tables (add.run Stage.answer misnamed).2 = .ok ∅ := by
  decide +kernel

end UnitOperation

end ClusterCatalog
