import ClusterCatalog.Proofs.OwnNames
import ClusterCatalog.Proofs.Store.Catalogue
import ClusterCatalog.Store.Reload
import ClusterCatalog.Store.Statistics

/-!
# Databases in order

Where no call is refused, writing to a database goes well: everything is written that is to be written,
unless the numbers of the revisions run out. The reason is that its items are all in order
(`Repository.InOrder`), and that writing to one of them leaves it in order and does not reach the
others. A plan that starts and ends with the items in order, and does not fail for another reason, is
**smooth**.

Names matter here. An item below another one would put a node that is no number among its revisions,
and reading the numbers would fail.
-/

namespace ClusterCatalog

open Plan Repository

/-! ### The items of a database -/

/-- **The items of a database**: its storage units, and the tables and views of its schemas. -/
inductive Path.IsItemOf (db : String) : Path → Prop
  | unit {name : String} (hname : Path.IsName name) : Path.IsItemOf db (Path.storageUnit db name)
  | definition {p : Place} (hp : p.Named) (hdb : p.db = db) : Path.IsItemOf db p.path

namespace Path.IsItemOf

variable {db : String} {x y : Path}

/-- An item has a path. -/
theorem ne_empty (h : IsItemOf db x) : x ≠ "" := by
  cases h with
  | unit hname => exact storageUnit_ne_empty db _
  | definition hp hdb => exact Place.path_ne_empty _

/-- The node of an item has a name. -/
theorem exists_eq_child (h : IsItemOf db x) :
    ∃ parent name, IsName name ∧ x = child parent name := by
  cases h with
  | unit hname => exact ⟨_, _, hname, rfl⟩
  | definition hp hdb => exact ⟨_, _, hp.2.2, rfl⟩

/-- A unit lies apart from the definitions of its database. -/
theorem apart_unit {name : String} {p : Place} (hdb : p.db = db) :
    (storageUnit db name).Apart p.path := by
  refine (apart_schemas_storageUnit db name).symm.mono (.refl _) ?_
  rw [← hdb]
  exact (Stored.covers_schema p.db p.schema).trans p.schema_covers_path

/-- **Different items are apart.** -/
theorem apart (hx : IsItemOf db x) (hy : IsItemOf db y) (hne : x ≠ y) : x.Apart y := by
  -- units and definitions are below different nodes of the database
  cases hx with
  | @unit name hname =>
    cases hy with
    | @unit name' hname' =>
      exact apart_storageUnit hname hname' fun heq => hne (congrArg (storageUnit db) heq)
    | definition hp hdb => exact apart_unit hdb
  | @definition p hp hdb =>
    cases hy with
    | unit hname => exact (apart_unit hdb).symm
    | @definition q hq hdb' => exact Place.apart_path hp hq fun heq => hne (congrArg Place.path heq)

end Path.IsItemOf

/-- **A database is in order**: all its items are. -/
def Repository.InOrder (db : String) (r : Repository) : Prop :=
  ∀ x, Path.IsItemOf db x → Item.Orderly r x

/-- In an empty repository everything is in order. -/
theorem Repository.inOrder_of_nodes_eq_empty {r : Repository} (h : r.nodes = ∅) (db : String) :
    r.InOrder db := fun _ _ => Item.orderly_of_none fun q _ => query_of_nodes_eq_empty h q

/-- One item has changed. -/
theorem Repository.InOrder.of_sameAt {db : String} {x : Path} {r r' : Repository} (h : r.InOrder db)
    (hx : Path.IsItemOf db x) (hsame : ∀ root, x.Apart root → SameAt root r r')
    (horderly : Item.Orderly r' x) : r'.InOrder db := by
  intro y hy
  by_cases heq : y = x
  · exact heq ▸ horderly
  · exact (h y hy).congr (hsame y (hx.apart hy (Ne.symm heq)))

/-! ### Smooth plans -/

/-- **A plan is smooth** for a database: where nothing is refused, it keeps the database in order, and
only an overflow can end it early. -/
def Access.Smooth {α : Type} (db : String) (p : Access α) : Prop :=
  ∀ s : Repository, s.InOrder db →
    p.Keeps sure (fun result s' => s'.InOrder db ∧ ∀ f, result = .error f → f = .overflow) s

namespace Access.Smooth

variable {α β : Type} {db : String} {x : Path}

/-- Doing nothing goes well. -/
theorem pure (a : α) : Smooth db (Pure.pure a : Access α) := fun _ hs => ⟨hs, fun _ h => by cases h⟩

/-- One operation after the other: the second one finds everything in order. -/
theorem seq {p : Access α} {f : α → Access β} (hp : Smooth db p) (hf : ∀ a, Smooth db (f a)) :
    Smooth db (p >>= f) := by
  intro s hs
  refine (hp s hs).bind (fun a s' hs' => hf a s' hs'.1) fun e s' hs' => ⟨hs'.1, fun e' he' => ?_⟩
  obtain rfl : e = e' := Except.error.inj he'
  exact hs'.2 e rfl

/-- A loop goes well if its rounds do. -/
theorem forM {f : α → Access Unit} {l : List α} (h : ∀ a ∈ l, Smooth db (f a)) :
    Smooth db (l.forM f) := by
  induction l with
  | nil => exact pure ()
  | cons a l ih =>
    exact (h a List.mem_cons_self).seq fun _ => ih fun b hb => h b (List.mem_cons_of_mem _ hb)

/-- A write that reaches no item. -/
theorem persist (h : ∀ y, Path.IsItemOf db y → ¬ y.Covers x) (v : String) :
    Smooth db (Access.persist x v) := by
  intro s hs
  refine Access.keeps_persist.2 ⟨trivial, ⟨fun y hy => ?_, fun _ h => by cases h⟩, fun _ he => he.elim⟩
  refine (hs y hy).congr fun q hq => query_persist_of_not_covers s x v fun hqx => ?_
  exact h y hy (hq.trans hqx)

/-- Removing an item leaves nothing of it. -/
theorem delete (h : Path.IsItemOf db x) : Smooth db (Access.delete x) := by
  intro s hs
  refine Access.keeps_delete.2 ⟨trivial, ⟨fun y hy => ?_, fun _ h => by cases h⟩, fun _ he => he.elim⟩
  obtain ⟨parent, name, hname, rfl⟩ := h.exists_eq_child
  by_cases heq : y = Path.child parent name
  · subst heq
    refine Item.orderly_of_none fun q hq => ?_
    rw [query_delete_child _ _ hname, if_pos hq.covers]
  · exact (hs y hy).congr (sameAt_delete_child hname (h.apart hy (Ne.symm heq)))

/-- What is about one item leaves the database in order, if it leaves that item so. -/
theorem of_item {p : Access α} (h : Path.IsItemOf db x) (hp : p.Uses (StoreRequest.Concerns x))
    (hkeeps : ∀ s, Item.Orderly s x → p.Keeps sure
      (fun result s' => Item.Orderly s' x ∧ ∀ f, result = .error f → f = .overflow) s) :
    Smooth db p := by
  intro s hs
  -- the other items of the database are apart from this one, so they stay in order
  have hframe : p.Keeps sure (fun _ s' => ∀ root, x.Apart root → SameAt root s s') s :=
    Access.keeps_of_unsure (Access.keeps_sameAt_within hp s)
  refine ((hkeeps s (hs x h)).and hframe).mono fun result s' hs' => ?_
  obtain ⟨⟨horderly, herror⟩, hsame⟩ := hs'
  exact ⟨hs.of_sameAt h hsame horderly, herror⟩

/-- Publishing a text in an item. -/
theorem publish (h : Path.IsItemOf db x) (v : String) : Smooth db (Item.publish x v) := by
  refine .of_item h (Item.uses_publish x v) fun s hs => ?_
  exact (Item.keeps_publish_orderly h.ne_empty hs v).mono fun _ _ hwritten =>
    ⟨hwritten.1.orderly, fun f hf => (hwritten.1.error f hf).1⟩

/-- Staging a revision of an item. -/
theorem stage (h : Path.IsItemOf db x) (v : String) : Smooth db (Item.stage x v) := by
  refine .of_item h (Item.uses_stage x v) fun s hs => ?_
  exact (Item.keeps_stage_orderly hs v).mono fun _ _ hwritten =>
    ⟨hwritten.orderly, fun f hf => (hwritten.error f hf).1⟩

/-- A loop that collects results goes well if its rounds do. -/
theorem mapM {f : α → Access β} {l : List α} (h : ∀ a ∈ l, Smooth db (f a)) :
    Smooth db (l.mapM f) := by
  induction l with
  | nil => exact pure []
  | cons a l ih =>
    rw [List.mapM_cons]
    refine (h a List.mem_cons_self).seq fun b => ?_
    exact (ih fun c hc => h c (List.mem_cons_of_mem _ hc)).seq fun _ => pure _

end Access.Smooth

/-! ### Replacing items -/

namespace Item

variable {db : String}

/-- Committing staged items goes well: each of them is there when its turn comes. -/
theorem keeps_commit_inOrder {items : List (Path × String)} {switches : List PendingSwitch}
    (hitems : ∀ e ∈ items, Path.IsItemOf db e.1) (hapart : items.Pairwise fun a b => a.1.Apart b.1)
    {s : Repository} (hs : s.InOrder db)
    (hstaged : List.Forall₂ (fun e switch => switch.path = e.1 ∧ Staged s switch e.2) items switches) :
    (commit switches).Keeps sure (fun result s' => s'.InOrder db ∧ result = .ok ()) s := by
  induction items generalizing switches s with
  | nil =>
    cases hstaged
    exact ⟨hs, rfl⟩
  | cons e items ih =>
    rw [List.pairwise_cons] at hapart
    rw [List.forall_mem_cons] at hitems
    obtain _ | @⟨_, switch, _, switches, ⟨hpath, hhead⟩, htail⟩ := hstaged
    -- the revision to be committed was written when the item was staged
    have hpresent : Present s switch.path switch.next := by
      rw [Present, hhead.written]
      rfl
    have horderly : Orderly s switch.path := hpath ▸ hs e.1 hitems.1
    have hframe : (commitOne switch).Keeps sure
        (fun _ s' => ∀ root, switch.path.Apart root → SameAt root s s') s :=
      Access.keeps_of_unsure (Access.keeps_sameAt_within (uses_commitOne switch) s)
    rw [commit_cons]
    refine ((keeps_commitOne_orderly horderly hpresent).and hframe).bind (fun _ s₁ h₁ => ?_)
      fun f s₁ h₁ => by cases h₁.1.1
    obtain ⟨⟨-, horderly₁, -⟩, hsame⟩ := h₁
    rw [hpath] at hsame horderly₁
    refine ih hitems.2 hapart.2 (hs.of_sameAt hitems.1 hsame horderly₁) ?_
    exact staged_congr htail fun e' he' => hsame e'.1 (hapart.1 e' he')

/-- **Replacing items** of a database in order goes well. -/
theorem smooth_replace {items : List (Path × String)}
    (hitems : ∀ e ∈ items, Path.IsItemOf db e.1)
    (hapart : items.Pairwise fun a b => a.1.Apart b.1) :
    Access.Smooth db ((items.mapM fun e => stage e.1 e.2) >>= commit) := by
  intro s hs
  have hsmooth : Access.Smooth db (items.mapM fun e => stage e.1 e.2) :=
    Access.Smooth.mapM fun e he => .stage (hitems e he) e.2
  have hstage : (items.mapM fun e => stage e.1 e.2).Keeps sure (fun result s' => SameApart items s s'
      ∧ ∀ switches, result = .ok switches →
        List.Forall₂ (fun e switch => switch.path = e.1 ∧ Staged s' switch e.2) items switches) s :=
    Access.keeps_of_unsure (keeps_mapM_stage (fun e he => (hitems e he).ne_empty) hapart s)
  refine ((hsmooth s hs).and hstage).bind (fun switches s₁ h₁ => ?_) fun f s₁ h₁ => ?_
  · -- what has been staged is there when it is committed, so nothing is left to fail
    obtain ⟨⟨hs₁, -⟩, -, hstaged⟩ := h₁
    refine (keeps_commit_inOrder hitems hapart hs₁ (hstaged switches rfl)).mono ?_
    rintro _ s₂ ⟨hs₂, rfl⟩
    exact ⟨hs₂, fun f hf => by cases hf⟩
  · -- staging itself may fail for want of a number, and then nothing has gone out of order
    obtain ⟨⟨hs₁, herror⟩, -⟩ := h₁
    refine ⟨hs₁, fun f' hf' => ?_⟩
    obtain rfl : f = f' := Except.error.inj hf'
    exact herror f rfl

end Item

/-! ### Schemas -/

/-- What is to be written of a schema has names. -/
theorem Schema.HasNames.additions {x : Schema} (h : x.HasNames) {name : String} (hname : Path.IsName name)
    (current : Option Schema) : (Schemas.additions name x current).HasNames := by
  have hempty : ({ name } : Schema).HasNames :=
    ⟨hname, (fun _ _ h => by cases h), (fun _ _ h => by cases h)⟩
  -- what is put in one after the other is part of the schema, so it has a name
  refine List.foldlRecOn (motive := Schema.HasNames) _ _
    (List.foldlRecOn (motive := Schema.HasNames) _ _ hempty fun y hy t ht => ?_) fun y hy v hv => ?_
  · exact hy.putTable (h.mem_tables t (List.mem_filter.1 ht).1)
  · exact hy.putView (h.mem_views v (List.mem_filter.1 hv).1)

/-- What is to be written of a reload has names. -/
theorem Schemas.HaveNames.toBeWritten {reloaded current : Schemas} (h : reloaded.HaveNames) :
    ∀ x ∈ Schemas.toBeWritten reloaded current, x.HasNames := by
  intro x hx
  obtain ⟨e, he, rfl⟩ := List.mem_map.1 (List.mem_filter.1 hx).1
  obtain ⟨hname, hnames⟩ := h.mem_entries e he
  exact hnames.additions hname _

/-- What is to be dropped after a reload has names. -/
theorem Schemas.HaveNames.toBeDropped {reloaded current : Schemas} (h : current.HaveNames) :
    ∀ t ∈ Schemas.toBeDropped reloaded current, Path.IsName t.1 ∧ Path.IsName t.2 := by
  intro t ht
  obtain ⟨e, he, ht⟩ := List.mem_flatMap.1 ht
  obtain ⟨table, htable, rfl⟩ := List.mem_map.1 ht
  obtain ⟨hname, hnames⟩ := h.mem_entries e he
  exact ⟨hname, hnames.mem_tables table (List.mem_filter.1 htable).1⟩

/-! ### What is written of a database -/

namespace Stored

variable {db schema : String}

/-- The node of an item is not above the tables of a schema. -/
theorem smooth_addSchema (hdb : Path.IsName db) (hschema : Path.IsName schema) :
    Access.Smooth db (addSchema db schema) := by
  refine Access.Smooth.persist (fun y hy => ?_) ""
  cases hy with
  | unit hname =>
    exact ((Path.apart_schemas_storageUnit db _).symm.mono (.refl _) (covers_tables db schema)).1
  | definition hp _ => exact Catalogue.not_path_covers_tables hp hdb hschema

/-- Publishing tables goes well. -/
theorem smooth_persistTables (hdb : Path.IsName db) (hschema : Path.IsName schema)
    {tables : List Table} (h : ∀ t ∈ tables, Path.IsName t.name) :
    Access.Smooth db (persistTables db schema tables) :=
  .forM fun t ht => (Access.Smooth.publish (.definition (p := ⟨db, schema, .table, t.name⟩)
    ⟨hdb, hschema, h t ht⟩ rfl) _).seq fun _ => .pure ()

/-- Publishing views goes well. -/
theorem smooth_persistViews (hdb : Path.IsName db) (hschema : Path.IsName schema)
    {views : List View} (h : ∀ v ∈ views, Path.IsName v.name) :
    Access.Smooth db (persistViews db schema views) :=
  .forM fun v hv => (Access.Smooth.publish (.definition (p := ⟨db, schema, .view, v.name⟩)
    ⟨hdb, hschema, h v hv⟩ rfl) _).seq fun _ => .pure ()

/-- Writing the tables of a schema goes well. -/
theorem smooth_alterSchemaTables (hdb : Path.IsName db) {x : Schema} (hx : x.HasNames) :
    Access.Smooth db (alterSchemaTables db x) :=
  (smooth_addSchema hdb hx.name).seq fun _ => smooth_persistTables hdb hx.name hx.mem_tables

/-- Writing a schema goes well. -/
theorem smooth_alterSchema (hdb : Path.IsName db) {x : Schema} (hx : x.HasNames) :
    Access.Smooth db (alterSchema db x) :=
  (smooth_addSchema hdb hx.name).seq fun _ =>
    (smooth_persistTables hdb hx.name hx.mem_tables).seq fun _ =>
      smooth_persistViews hdb hx.name hx.mem_views

/-- Dropping tables goes well, also those that are not stored. -/
theorem smooth_dropRemovedTables (hdb : Path.IsName db) {reloaded current : Schemas}
    (h : current.HaveNames) : Access.Smooth db (dropRemovedTables db reloaded current) := by
  refine Access.Smooth.forM fun t ht => ?_
  obtain ⟨hschema, htable⟩ := h.toBeDropped t ht
  exact .delete (.definition (p := ⟨db, t.1, .table, t.2⟩) ⟨hdb, hschema, htable⟩ rfl)

/-- **Writing a reload** goes well. -/
theorem smooth_persistReloadAltered (hdb : Path.IsName db) {reloaded current : Schemas}
    (hreloaded : reloaded.HaveNames) (hcurrent : current.HaveNames) :
    Access.Smooth db (persistReloadAltered db reloaded current) :=
  (Access.Smooth.forM fun x hx => smooth_alterSchema hdb (hreloaded.toBeWritten x hx)).seq fun _ =>
    smooth_dropRemovedTables hdb hcurrent

/-- **Writing a reload goes well**, also if only tables are written. -/
theorem smooth_persistReloadDropped (hdb : Path.IsName db) {reloaded current : Schemas}
    (hreloaded : reloaded.HaveNames) (hcurrent : current.HaveNames) :
    Access.Smooth db (persistReloadDropped db reloaded current) :=
  (Access.Smooth.forM fun x hx =>
    smooth_alterSchemaTables hdb (hreloaded.toBeWritten x hx)).seq fun _ =>
      smooth_dropRemovedTables hdb hcurrent

/-- Statistics are no items. -/
theorem smooth_persist_statistics {x : Path} (hx : Path.statisticsRoot.Covers x) (v : String) :
    Access.Smooth db (Access.persist x v) := by
  refine Access.Smooth.persist (fun y hy => ?_) v
  have hdatabase : (Path.database db).Covers y := by
    -- every item of the database is below its metadata, and statistics are not
    cases hy with
    | unit hname =>
      exact (Path.database_covers_storageUnits db).trans (Path.storageUnits_cover db _)
    | @definition p hp hdb =>
      rw [← hdb]
      exact (Place.database_covers_schema p.db p.schema).trans p.schema_covers_path
  exact ((Path.apart_statisticsRoot_database db).symm.mono hdatabase hx).1

/-- Statistics are no items, so writing them puts none out of order. -/
theorem smooth_persistStatistics (definition : Option Schema) (statistics : SchemaStatistics) :
    Access.Smooth db (persistStatistics db schema definition statistics) := by
  have hschema : Path.statisticsRoot.Covers (Path.statisticsSchema db schema) :=
    ((Path.isAbove_child _ db).covers.trans (Path.isAbove_child _ "schemas").covers).trans
      (Path.isAbove_child _ schema).covers
  unfold persistStatistics
  split
  · exact smooth_persist_statistics hschema ""
  · refine Access.Smooth.forM fun e _ => ?_
    split
    · exact smooth_persist_statistics ((hschema.trans (Path.isAbove_child _ "tables").covers).trans
        (Path.isAbove_child _ e.1).covers) _
    · exact .pure ()

/-- **Replacing units** goes well. -/
theorem smooth_replaceUnits {units : SortedMap PoolProperties}
    (hnames : ∀ name, units.contains name = true → Path.IsName name) :
    Access.Smooth db (persistUnits db units >>= Item.commit) := by
  rw [persistUnits_eq]
  refine Item.smooth_replace (fun e he => ?_) (apart_unitItems hnames)
  obtain ⟨entry, hentry, rfl⟩ := List.mem_map.1 he
  exact .unit (isName_of_mem_entries hnames entry hentry)

end Stored

end ClusterCatalog
