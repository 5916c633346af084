import ClusterCatalog.Proofs.Cluster.Effect
import ClusterCatalog.Proofs.Store.Definitions

/-!
# Renaming a schema

A schema is renamed by writing what the current generation has of it under the new name, and then
removing the old one with everything below it. The new name may be that of a schema that is stored
already; its other tables and views stay (`Renamed`). If one of them cannot be read, nothing is loaded
under the new name, before as after, unless it is just the one that is replaced.

Old and new name may also be the same. Then what has just been written is removed, and the schema is
gone, though the operation succeeds. This is the only way in which renaming loses anything
(`Service.renamed_iff`).
-/

namespace ClusterCatalog

open Plan Repository

/-- An empty schema has neither a table nor a view. -/
theorem Schema.isEmpty_iff {x : Schema} :
    x.isEmpty = true ↔ x.tables.values = [] ∧ x.views.values = [] := by
  unfold isEmpty SortedMap.isEmpty SortedMap.values
  rw [Bool.and_eq_true, List.isEmpty_iff, List.isEmpty_iff, List.map_eq_nil_iff, List.map_eq_nil_iff]

namespace Stored

/-! ### Copying a schema -/

/-- What is written of a schema under a new name. -/
def copySchema (db newName : String) (x : Schema) : Access Unit :=
  if x.isEmpty then addSchema db newName
  else persistTables db newName x.tables.values >>= fun _ =>
    persistViews db newName x.views.values

/-- The schema under its new name. -/
def renamed (newName : String) (x : Schema) : Schema := { x with name := newName }

variable {db newName : String} {x : Schema}

theorem text_renamed (kind : DefinitionKind) (n : String) :
    (renamed newName x).text kind n = x.text kind n := by
  cases kind <;> rfl

/-- **A schema is copied** definition by definition. -/
theorem makes_copySchema (hx : x.Keyed) (hname : Path.IsName newName) :
    Makes db ([.table, .view].flatMap (changesOf db (renamed newName x)))
      (copySchema db newName x) := by
  -- its tables and views are those of the schema that is copied, only its own name is another one
  have hkeyed : (renamed newName x).Keyed := hx
  have hnames : (renamed newName x).HasNames := hkeyed.hasNames hname
  rw [List.flatMap_cons, List.flatMap_singleton]
  unfold copySchema
  split
  · -- of an empty schema there is nothing to change
    rename_i hempty
    obtain ⟨htables, hviews⟩ := Schema.isEmpty_iff.1 hempty
    have hnone : changesOf db (renamed newName x) .table ++ changesOf db (renamed newName x) .view = [] := by
      simp [changesOf, texts, renamed, htables, hviews]
    rw [hnone]
    exact makes_addSchema hname
  · exact (makes_persistTables hnames).seq (makes_persistViews hnames)

/-- **A schema that is copied is listed**, even if nothing is in it. -/
theorem creates_copySchema (hname : Path.IsName newName) :
    Access.Creates (Path.schema db newName) (copySchema db newName x) := by
  -- all that is written below the new name leaves the node of the new name there
  have hspares : ∀ {p : Access Unit}, p.Uses (StoreRequest.Concerns (Path.schema db newName)) →
      p.Uses (StoreRequest.Spares (Path.schema db newName)) := fun h =>
    h.mono fun _ => spares_schema hname hname
  unfold copySchema
  split
  · -- an empty schema gets its node by itself, all others by the first of their definitions
    exact creates_addSchema newName
  · rename_i hempty
    rw [Schema.isEmpty_iff, not_and_or] at hempty
    rcases hempty with htables | hviews
    · obtain ⟨t, ht⟩ := List.exists_mem_of_ne_nil _ htables
      refine (Access.Creates.forM (fun t _ => ?_)
        ⟨t, ht, creates_definition ⟨db, newName, .table, t.name⟩ (Codec.write t)⟩).seq_left fun _ =>
          hspares (uses_persistViews db newName _)
      exact hspares (uses_definition ⟨db, newName, .table, t.name⟩ _)
    · obtain ⟨v, hv⟩ := List.exists_mem_of_ne_nil _ hviews
      refine Access.Creates.seq_right fun _ => Access.Creates.forM (fun v _ => ?_)
        ⟨v, hv, creates_definition ⟨db, newName, .view, v.name⟩ (Codec.write v)⟩
      exact hspares (uses_definition ⟨db, newName, .view, v.name⟩ _)

end Stored

/-! ### What renaming leads to -/

/-- **A schema has been renamed**, together with what the current generation has of it. Under the new
name each definition is as the schema has it, and else as it was before. So its tables are loaded over
those that the new name had, if these could be loaded (`loadsTables`); if not, it depends on whether what
could not be read has been replaced (`tables`). With the views it is the same. The new name is listed, and
the old one is not, unless it is the same. -/
structure Renamed (db schema newName : String) (x : Schema) (r r' : Repository) : Prop where
  definitions : ∀ kind name, Path.IsName name →
    Item.Turned r r' (Place.path ⟨db, newName, kind, name⟩) ((x.text kind name).map some)
  tables : ∀ tables, (Stored.loadTables db newName).run answer r' = (.ok tables, r')
    ↔ Item.LaidOver r (Path.table db newName) x.tables tables
  views : ∀ views, (Stored.loadViews db newName).run answer r' = (.ok views, r')
    ↔ Item.LaidOver r (Path.view db newName) x.views views
  loadsTables : ∀ before, (Stored.loadTables db newName).run answer r = (.ok before, r) →
    (Stored.loadTables db newName).run answer r' = (.ok (before.overlay x.tables), r')
  loadsViews : ∀ before, (Stored.loadViews db newName).run answer r = (.ok before, r) →
    (Stored.loadViews db newName).run answer r' = (.ok (before.overlay x.views), r')
  listed : ∃ names, (Stored.schemaNames db).run answer r' = (.ok names, r')
    ∧ newName ∈ names ∧ (schema ≠ newName → schema ∉ names)

namespace Stored

variable {db schema newName : String} {x : Schema}

/-- A schema that has been removed is not listed. -/
theorem not_mem_schemaNames_dropSchema (hschema : Path.IsName schema) (r : Repository) :
    schema ∉ (r.delete (Path.schema db schema)).children (Path.schemas db) := by
  rw [mem_schemaNames_iff, Path.schema, query_delete_child _ _ hschema, if_pos (.refl _)]
  exact fun h => Bool.false_ne_true h.2

/-- **Copying a schema and dropping it under its old name** renames it, if the names are different, and
loses it, if they are not. -/
theorem keeps_moveSchema (hschema : Path.IsName schema) (hnew : Path.IsName newName) (hx : x.Keyed)
    (r : Repository) :
    (copySchema db newName x >>= fun _ => dropSchema db schema).Keeps unsure
      (fun result r' => result = .ok () → (Renamed db schema newName x r r' ↔ schema ≠ newName)) r := by
  refine ((makes_copySchema hx hnew r).and (creates_copySchema hnew r)).bind (fun _ r₁ h₁ => ?_)
    fun _ _ _ h => by cases h
  obtain ⟨hchanged, hcreated⟩ := h₁
  have hchanged := hchanged rfl
  have hcreated := hcreated () rfl
  refine Access.keeps_delete.2 ⟨trivial, fun _ => ?_, fun _ _ h => by cases h⟩
  have hnames : ∀ r' : Repository, (schemaNames db).run answer r'
      = (.ok (r'.children (Path.schemas db)), r') := fun r' =>
    (Access.reads_children (Path.schemas db)).run
  refine ⟨?_, fun hne => ?_⟩
  · -- if the names are the same, what was listed under the new one is dropped
    rintro ⟨-, -, -, -, -, names, hrun, hlisted, -⟩ rfl
    rw [hnames] at hrun
    obtain rfl := Except.ok.inj (Prod.mk.inj hrun).1
    exact not_mem_schemaNames_dropSchema hschema r₁ hlisted
  · -- if they differ, the node that is dropped is apart from all that was copied
    have hsame : SameAt (Path.schema db newName) r₁ (r₁.delete (Path.schema db schema)) :=
      sameAt_delete_child hschema (Place.apart_schema_of_ne hschema hnew hne)
    -- so every definition under the new name is where the copy has left it
    have hturned : ∀ kind n, Path.IsName n → Item.Turned r (r₁.delete (Path.schema db schema))
        (Place.path ⟨db, newName, kind, n⟩) ((x.text kind n).map some) := by
      intro kind n hn
      have hplace := hchanged ⟨db, newName, kind, n⟩ ⟨rfl, hnew, hn⟩
      have hkeyed : (renamed newName x).Keyed := hx
      have hname : (renamed newName x).name = newName := rfl
      rw [lookup_schemaChanges hkeyed hname n, text_renamed] at hplace
      have hcovers := Place.schema_covers_path ⟨db, newName, kind, n⟩
      exact Item.Turned.congr hplace fun q hq => hsame q (hcovers.trans hq)
    have htables := fun n (hn : Path.IsName n) => Option.map_map .. ▸ hturned .table n hn
    have hviews := fun n (hn : Path.IsName n) => Option.map_map .. ▸ hturned .view n hn
    refine ⟨hturned, fun tables => run_loadTables_iff htables, fun views => run_loadViews_iff hviews,
      fun before => run_loadTables_overlay htables fun n hn => ?_,
      fun before => run_loadViews_overlay hviews fun n hn => ?_,
      _, hnames _, ?_, fun _ => not_mem_schemaNames_dropSchema hschema r₁⟩
    · obtain ⟨t, ht⟩ := SortedMap.contains_iff.1 hn
      exact (hx.1 _ (x.tables.get?_eq_some_iff.1 ht)).1
    · obtain ⟨v, hv⟩ := SortedMap.contains_iff.1 hn
      exact (hx.2 _ (x.views.get?_eq_some_iff.1 hv)).1
    · rw [mem_schemaNames_iff, hsame _ (.refl _)]
      exact ⟨hnew, hcreated⟩

end Stored

namespace Service

/-- Renaming takes the current generation and, if it has the schema, writes it and drops the old
one. -/
theorem renameSchema_eq (db schema newName : String) :
    Service.renameSchema db schema newName = (Cluster.current >>= fun generation =>
      Plan.ofExcept (generation.database db) >>= fun database =>
        match database.schemas.get? schema with
        | none => .fail (.schemaNotFound db schema)
        | some found => Cluster.access
          (Stored.copySchema db newName found >>= fun _ => Stored.dropSchema db schema)) := by
  unfold Service.renameSchema Stored.copySchema
  refine congrArg _ (funext fun generation => congrArg _ (funext fun database => ?_))
  cases database.schemas.get? schema with
  | none => rfl
  | some found => cases hempty : found.isEmpty <;> simp [hempty]

/-- **Renaming a schema loses nothing if the new name is another one, and only then.** Whatever is
stored and whatever is refused: if the operation succeeds, the current generation has the schema; and
then it has been renamed exactly if the two names are different. Its tables and views are then loaded
under the new name, over the others that the new name has, provided that these could be read before. -/
theorem renamed_iff (db schema newName : String) (hschema : Path.IsName schema)
    (hnew : Path.IsName newName) (s : Stage)
    (hkeyed : ∀ x, (s.generation.schemas db).get? schema = some x → x.Keyed)
    (hok : ((renameSchema db schema newName).run Stage.answer s).1 = .ok ()) :
    ∃ x, (s.generation.schemas db).get? schema = some x
      ∧ (Renamed db schema newName x s.repository
          ((renameSchema db schema newName).run Stage.answer s).2.repository ↔ schema ≠ newName) := by
  let post (result : Except Failure Unit) (s' : Scene) : Prop := result = .ok () →
    ∃ x, (s.generation.schemas db).get? schema = some x
      ∧ (Renamed db schema newName x s.repository s'.store ↔ schema ≠ newName)
  -- only the database matters, so the run is looked at as a scene
  suffices h : (renameSchema db schema newName).Keeps (sceneTerms db) post (s.scene db) from
    h.run (fun r s => Stage.answer_scene db r s) hok
  have hschemas : s.generation.schemas db = ((s.scene db).database.map Database.schemas).getD ∅ := rfl
  rw [renameSchema_eq, keeps_bind]
  refine Scene.keeps_current fun g hg => ?_
  show (Plan.ofExcept (g.database db) >>= _).Keeps _ _ _
  rw [keeps_bind, keeps_ofExcept, Generation.database, hg]
  -- without the database, or without the schema in it, the operation fails and nothing is to be shown
  cases hdatabase : (s.scene db).database with
  | none => exact fun h => by cases h
  | some database =>
    rw [hdatabase] at hschemas
    change s.generation.schemas db = database.schemas at hschemas
    show (match database.schemas.get? schema with
      | none => _
      | some found => _ : Cluster Unit).Keeps _ _ _
    cases hx : database.schemas.get? schema with
    | none => exact fun h => by cases h
    | some x =>
      rw [← hschemas] at hx
      refine Scene.keeps_access.2 ?_
      refine (Stored.keeps_moveSchema hschema hnew (hkeyed x hx) s.repository).mono
        fun result store h hresult => ⟨x, hx, h hresult⟩

/-- A node whose generation has a schema `s` with one table. Stored is a schema with a table of the
same definition. -/
def oneTableStage (stored : String) : Stage where
  repository := .memory ⟨.ofList (Item.firstRevision (Path.table "d" stored "t")
    (Codec.write ({ name := "t" } : Table)))⟩
  generation := { databases := .ofList [("d",
    { name := "d", schemas := .ofList [("s", .ofTables "s" [{ name := "t" }])] })] }

/-- The schema is renamed to one that has a table of the same name. -/
theorem renamed_iff_same_table :
    let final := ((renameSchema "d" "s" "x").run Stage.answer (oneTableStage "x")).2
    ((renameSchema "d" "s" "x").run Stage.answer (oneTableStage "x")).1 = .ok ()
      ∧ ∃ x, ((oneTableStage "x").generation.schemas "d").get? "s" = some x
        ∧ Renamed "d" "s" "x" x (oneTableStage "x").repository final.repository := by
  have hok : ((renameSchema "d" "s" "x").run Stage.answer (oneTableStage "x")).1 = .ok () := by
    decide +kernel
  have hkeyed : ∀ x ∈ ((oneTableStage "x").generation.schemas "d").get? "s", x.Keyed := by
    decide +kernel
  obtain ⟨x, hx, hiff⟩ := renamed_iff "d" "s" "x" (by decide) (by decide) (oneTableStage "x")
    (fun x hx => hkeyed x hx) hok
  exact ⟨hok, x, hx, hiff.2 (by decide)⟩

/-- **A schema that is renamed to itself is lost.** Its table is stored before, as the generation has
it. The operation succeeds, and then neither the schema is listed nor its table loaded. -/
theorem lost_by_renaming_to_itself :
    let final := ((renameSchema "d" "s" "s").run Stage.answer (oneTableStage "s")).2.repository
    ((renameSchema "d" "s" "s").run Stage.answer (oneTableStage "s")).1 = .ok ()
      ∧ (((oneTableStage "s").generation.schemas "d").get? "s").map Schema.tables
        = some (.ofList [("t", { name := "t" })])
      ∧ ((Stored.loadTables "d" "s").run answer (oneTableStage "s").repository).1
        = .ok (.ofList [("t", { name := "t" })])
      ∧ ((Stored.loadTables "d" "s").run answer final).1 = .ok ∅
      ∧ ((Stored.schemaNames "d").run answer final).1 = .ok [] := by
  decide +kernel

end Service

end ClusterCatalog
