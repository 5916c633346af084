import ClusterCatalog.Proofs.Store.Difference
import ClusterCatalog.Proofs.Store.Loading

/-!
# What writing a reload leads to

Writing a reload is a sequence of changes of definitions, each of them at one place of the database.
An operation *makes* a list of changes (`Stored.Makes`) if afterwards each place shows what its last
change says, and places without a change are as they were; this is closed under sequences and loops,
so what a reload makes is read off its plan (`Stored.makes_persistReloadAltered`,
`Stored.makes_persistReloadDropped`).

Whatever is refused on the way, an operation that ends well has made its changes, and nothing outside
the schemas has changed (`Access.keeps_leftAlone`). `Stored.persistReload_reaches` puts the two
together: what is loaded afterwards are the tables of the reload.
-/

namespace ClusterCatalog

open Plan Repository

/-! ### Places of one database -/

namespace Place

variable {db : String} {p q : Place}

/-- **A place is in a database**, below names. The database itself may be called anything. -/
def In (db : String) (p : Place) : Prop := p.db = db ∧ Path.IsName p.schema ∧ Path.IsName p.name

/-- **Different places of a database are apart.** -/
theorem In.apart (hp : p.In db) (hq : q.In db) (hne : p ≠ q) : p.path.Apart q.path := by
  obtain ⟨pdb, schema, kind, name⟩ := p
  obtain ⟨qdb, schema', kind', name'⟩ := q
  obtain ⟨hpdb, hschema, hname⟩ := hp
  obtain ⟨hqdb, hschema', hname'⟩ := hq
  obtain rfl : pdb = db := hpdb
  obtain rfl : qdb = pdb := hqdb
  -- the schemas tell the two apart, or they are definitions of one schema
  by_cases hs : schema = schema'
  · subst hs
    exact apart_path_of_same_schema hname hname' hne
  · exact (apart_schema_of_ne hschema hschema' hs).mono
      (schema_covers_path ⟨_, schema, kind, name⟩) (schema_covers_path ⟨_, schema', kind', name'⟩)

/-- A place is not above the node that holds the tables of a schema. -/
theorem In.not_covers_tables (hp : p.In db) {s : String} (hs : Path.IsName s) :
    ¬ p.path.Covers (Path.tables db s) := by
  obtain ⟨pdb, schema, kind, name⟩ := p
  obtain ⟨hpdb, hschema, hname⟩ := hp
  obtain rfl : pdb = db := hpdb
  -- within the schema a table is below the node of tables, and a view is apart from it
  by_cases heq : schema = s
  · subst heq
    cases kind with
    | table => exact (Path.isAbove_child _ _).not_covers
    | view =>
      have hapart : (Path.child (Path.schema pdb schema) "views").Apart (Path.tables pdb schema) :=
        Path.apart_child (by decide) (by decide) (by decide)
      exact (hapart.mono (Path.isAbove_child _ _).covers (.refl _)).1
  · exact ((apart_schema_of_ne hschema hs heq).mono (schema_covers_path _)
      (Path.isAbove_child _ _).covers).1

end Place

/-! ### Changes of definitions -/

namespace Item

/-- What has become of an item: it shows a new text, it is gone, or, without a change, everything
of it is as it was. -/
def Turned (r r' : Repository) (path : Path) : Option (Option String) → Prop
  | some text => ShowsAt r' path text
  | none => SameAt path r r'

end Item

namespace Stored

variable {db : String} {l l' : List (Place × Option String)} {r r₁ r₂ : Repository}

/-- **Changes of definitions have been made**, one after the other, each of them a place with its
new text, or with none if the definition is removed. What counts is the last change of a place. -/
def Changed (db : String) (l : List (Place × Option String)) (r r' : Repository) : Prop :=
  ∀ p : Place, p.In db → Item.Turned r r' p.path (l.reverse.lookup p)

theorem Changed.refl (db : String) (r : Repository) : Changed db [] r r := fun p _ => .refl p.path r

/-- Lists of changes are made one after the other. -/
theorem Changed.trans (h : Changed db l r r₁) (h' : Changed db l' r₁ r₂) :
    Changed db (l ++ l') r r₂ := by
  intro p hp
  have hfirst := h p hp
  have hlast := h' p hp
  rw [List.reverse_append, List.lookup_append]
  cases hlater : l'.reverse.lookup p with
  | some text => rw [hlater] at hlast; exact hlast
  | none =>
    -- the later changes leave the place alone
    rw [hlater] at hlast
    rw [Option.none_or]
    cases hearlier : l.reverse.lookup p with
    | some text => rw [hearlier] at hfirst; exact Item.ShowsAt.congr hfirst hlast
    | none => rw [hearlier] at hfirst; exact hfirst.trans hlast

/-- **An operation makes changes** of definitions if it ends well, whatever is refused. -/
def Makes (db : String) (l : List (Place × Option String)) (p : Access Unit) : Prop :=
  ∀ r, p.Keeps unsure (fun result r' => result = .ok () → Changed db l r r') r

theorem makes_pure : Makes db [] (pure ()) := fun r _ => .refl db r

theorem Makes.seq {p q : Access Unit} (hp : Makes db l p) (hq : Makes db l' q) :
    Makes db (l ++ l') (p >>= fun _ => q) := by
  intro r
  refine (hp r).bind (fun _ r₁ h₁ => ?_) fun _ _ _ h => by cases h
  exact (hq r₁).mono fun _ _ h hresult => (h₁ rfl).trans (h hresult)

/-- A loop makes the changes of its rounds. -/
theorem Makes.forM {α : Type} {f : α → Access Unit} {changes : α → List (Place × Option String)}
    {as : List α} (h : ∀ a ∈ as, Makes db (changes a) (f a)) :
    Makes db (as.flatMap changes) (as.forM f) := by
  induction as with
  | nil => exact makes_pure
  | cons a as ih =>
    rw [List.forall_mem_cons] at h
    exact h.1.seq (ih h.2)

/-- What is done at one place is a change of that place. -/
theorem makes_of_concerns {p : Place} (hp : p.In db) {text : Option String} {q : Access Unit}
    (huses : q.Uses (StoreRequest.Concerns p.path))
    (hkeeps : ∀ r, q.Keeps unsure (fun result r' => result = .ok () →
      Item.ShowsAt r' p.path text) r) : Makes db [(p, text)] q := by
  intro r
  refine ((hkeeps r).and (Access.keeps_sameAt_within huses r)).mono fun result r' h hresult => ?_
  -- other places are apart from this one
  obtain ⟨hshows, hsame⟩ := h
  intro p' hp'
  by_cases heq : p' = p
  · subst heq
    rw [List.reverse_singleton, List.lookup_cons_self]
    exact hshows hresult
  · rw [List.reverse_singleton, List.lookup_cons, beq_false_of_ne heq]
    exact hsame p'.path (hp.apart hp' (Ne.symm heq))

end Stored

namespace Item

/-- **Publishing a text**, if it succeeds, shows it, whatever was refused on the way. -/
theorem keeps_publish_shows {path : Path} (hpath : path ≠ "") (v : String) (r : Repository) :
    (publish path v).Keeps unsure (fun result r' => ∀ s, result = .ok s → Shows r' path v) r := by
  unfold publish
  refine (keeps_stage hpath v r).bind (fun s r₁ hs => ?_) fun _ _ _ _ h => by cases h
  obtain ⟨rfl, hstaged⟩ := hs s rfl
  rw [commit_singleton]
  exact (keeps_commitOne_shows hstaged).bind (fun _ r₂ hr₂ _ _ => hr₂ rfl) fun _ _ _ _ h => by cases h

end Item

namespace Stored

variable {db s : String}

/-- Publishing a definition. -/
theorem makes_publish {p : Place} (hp : p.In db) (v : String) :
    Makes db [(p, some v)] (Item.publish p.path v >>= fun _ => pure ()) := by
  refine makes_of_concerns hp ((Item.uses_publish p.path v).seq fun _ => trivial) fun r => ?_
  exact (Item.keeps_publish_shows p.path_ne_empty v r).bind (fun switch _ h _ => h switch rfl)
    fun _ _ _ h => by cases h

/-- Removing a definition. -/
theorem makes_delete {p : Place} (hp : p.In db) : Makes db [(p, none)] (Access.delete p.path) := by
  intro r
  refine Access.keeps_delete.2 ⟨trivial, fun _ p' hp' => ?_, fun _ _ h => by cases h⟩
  have hname : Path.IsName p.name := hp.2.2
  by_cases heq : p' = p
  · subst heq
    rw [List.reverse_singleton, List.lookup_cons_self]
    exact (query_delete_child r _ hname).trans (if_pos (.refl _))
  · rw [List.reverse_singleton, List.lookup_cons, beq_false_of_ne heq]
    exact sameAt_delete_child hname (hp.apart hp' (Ne.symm heq))

/-- Creating a schema changes no definition. -/
theorem makes_addSchema (hs : Path.IsName s) : Makes db [] (addSchema db s) := by
  intro r
  refine Access.keeps_persist.2 ⟨trivial, fun _ p hp q hq => ?_, fun _ _ h => by cases h⟩
  exact r.query_persist_of_not_covers _ _ fun hcovers =>
    hp.not_covers_tables hs (hq.trans hcovers)

theorem makes_persistTables {x : Schema} (hx : x.HasNames) :
    Makes db (changesOf db x .table) (persistTables db x.name x.tables.values) := by
  rw [changesOf, texts, List.map_map, List.map_eq_flatMap]
  exact Makes.forM fun t ht =>
    makes_publish (p := ⟨db, x.name, .table, t.name⟩) ⟨rfl, hx.name, hx.mem_tables t ht⟩ _

theorem makes_persistViews {x : Schema} (hx : x.HasNames) :
    Makes db (changesOf db x .view) (persistViews db x.name x.views.values) := by
  rw [changesOf, texts, List.map_map, List.map_eq_flatMap]
  exact Makes.forM fun v hv =>
    makes_publish (p := ⟨db, x.name, .view, v.name⟩) ⟨rfl, hx.name, hx.mem_views v hv⟩ _

theorem makes_alterSchema {x : Schema} (hx : x.HasNames) :
    Makes db ([.table, .view].flatMap (changesOf db x)) (alterSchema db x) := by
  rw [List.flatMap_cons, List.flatMap_singleton]
  exact (makes_addSchema hx.name).seq ((makes_persistTables hx).seq (makes_persistViews hx))

theorem makes_alterSchemaTables {x : Schema} (hx : x.HasNames) :
    Makes db ([.table].flatMap (changesOf db x)) (alterSchemaTables db x) := by
  rw [List.flatMap_singleton]
  exact (makes_addSchema hx.name).seq (makes_persistTables hx)

theorem makes_dropRemovedTables {reloaded current : Schemas} (h : current.HaveNames) :
    Makes db (dropChanges db reloaded current) (dropRemovedTables db reloaded current) := by
  rw [dropChanges, List.map_eq_flatMap]
  refine Makes.forM fun t ht => ?_
  obtain ⟨hs, hname⟩ := h.toBeDropped t ht
  exact makes_delete (p := ⟨db, t.1, .table, t.2⟩) ⟨rfl, hs, hname⟩

/-- **Writing a reload after an alteration** changes tables and views. -/
theorem makes_persistReloadAltered {reloaded current : Schemas} (hreloaded : reloaded.HaveNames)
    (hcurrent : current.HaveNames) :
    Makes db (reloadChanges db [.table, .view] reloaded current)
      (persistReloadAltered db reloaded current) :=
  (Makes.forM fun x hx => makes_alterSchema (hreloaded.toBeWritten x hx)).seq
    (makes_dropRemovedTables hcurrent)

/-- **Writing a reload after a removal** changes tables only. -/
theorem makes_persistReloadDropped {reloaded current : Schemas} (hreloaded : reloaded.HaveNames)
    (hcurrent : current.HaveNames) :
    Makes db (reloadChanges db [.table] reloaded current)
      (persistReloadDropped db reloaded current) :=
  (Makes.forM fun x hx => makes_alterSchemaTables (hreloaded.toBeWritten x hx)).seq
    (makes_dropRemovedTables hcurrent)

end Stored

/-! ### What a reload makes of each place -/

namespace Stored

variable {db : String} {kinds : List DefinitionKind} {reloaded current : Schemas} {r r' : Repository}
  {l : List (Place × Option String)} {p : Place} {o : Option (Option String)}

/-- What a list of changes makes of a place, where all changes of the place agree. -/
theorem lookup_reverse_eq (h : ∀ text, (p, text) ∈ l ↔ o = some text) : l.reverse.lookup p = o := by
  cases hlookup : l.reverse.lookup p with
  | some text =>
    obtain ⟨l₁, l₂, heq, -⟩ := List.lookup_eq_some_iff.1 hlookup
    have hmem : (p, text) ∈ l.reverse := heq ▸ List.mem_append_right _ List.mem_cons_self
    exact ((h text).1 (List.mem_reverse.1 hmem)).symm
  | none =>
    cases o with
    | none => rfl
    | some text =>
      -- a change that is in the list would be found
      have hmem := List.mem_reverse.2 ((h text).2 rfl)
      have hne := List.lookup_eq_none_iff.1 hlookup (p, text) hmem
      simp at hne

/-- **A place shows what the reload has** if the reload changes it, and else it is as it was. -/
theorem Changed.shows_or_same (hreloaded : reloaded.Keyed) (hcurrent : current.Keyed)
    (htable : .table ∈ kinds) (h : Changed db (reloadChanges db kinds reloaded current) r r')
    {p : Place} (hp : p.In db) :
    ReloadChanges kinds reloaded current p
        ∧ Item.ShowsAt r' p.path ((reloaded.schema p.schema).text p.kind p.name)
      ∨ ¬ ReloadChanges kinds reloaded current p ∧ SameAt p.path r r' := by
  have hturned := h p hp
  have hmem : ∀ text, (p, text) ∈ reloadChanges db kinds reloaded current
      ↔ text = (reloaded.schema p.schema).text p.kind p.name
        ∧ ReloadChanges kinds reloaded current p := fun text => by
    rw [mem_reloadChanges_iff hreloaded hcurrent htable, and_iff_right hp.1]
  -- the list has a change of this place exactly if the texts differ; then it is the only one
  by_cases hchanges : ReloadChanges kinds reloaded current p
  · have hlookup := lookup_reverse_eq fun text => by
      rw [hmem text, and_iff_left hchanges, eq_comm, ← Option.some_inj]
    rw [hlookup] at hturned
    exact .inl ⟨hchanges, hturned⟩
  · have hlookup := lookup_reverse_eq (o := none) fun text => by
      rw [hmem text]
      exact iff_of_false (fun h => hchanges h.2) fun h => by cases h
    rw [hlookup] at hturned
    exact .inr ⟨hchanges, hturned⟩

variable {s n : String}

/-- **The tables are those of the reload**, and one that is the same on both sides is left alone. -/
theorem Changed.table (hreloaded : reloaded.Keyed) (hcurrent : current.Keyed)
    (htable : .table ∈ kinds) (h : Changed db (reloadChanges db kinds reloaded current) r r')
    (hs : Path.IsName s) (hn : Path.IsName n) :
    (Item.Loads r (Path.table db s n) ((current.schema s).tables.get? n) →
        Item.Loads r' (Path.table db s n) ((reloaded.schema s).tables.get? n))
      ∧ ((current.schema s).tables.get? n = (reloaded.schema s).tables.get? n →
        SameAt (Path.table db s n) r r') := by
  rcases h.shows_or_same hreloaded hcurrent htable (p := ⟨db, s, .table, n⟩) ⟨rfl, hs, hn⟩ with
    ⟨⟨hne, -⟩, hshows⟩ | ⟨hunchanged, hsame⟩
  · -- a changed table is loaded from its new text, whatever was there before
    refine ⟨fun _ => Item.loads_of_showsAt Codec.read?_write_table hshows, fun heq => absurd ?_ hne⟩
    exact congrArg (Option.map Codec.write) heq.symm
  · -- a table without a change has the same text on both sides, and so is the same table
    have htext : (reloaded.schema s).text .table n = (current.schema s).text .table n := by
      by_contra hne
      exact hunchanged ⟨hne, .inl rfl⟩
    have heq := Option.map_injective Schemas.write_table_injective htext
    exact ⟨fun hbefore => heq ▸ hbefore.congr hsame, fun _ => hsame⟩

/-- **The views are those of the reload over the former ones** if views are written, and else the
former ones. -/
theorem Changed.view (hreloaded : reloaded.Keyed) (hcurrent : current.Keyed)
    (htable : .table ∈ kinds) (h : Changed db (reloadChanges db kinds reloaded current) r r')
    (hs : Path.IsName s) (hn : Path.IsName n)
    (hbefore : Item.Loads r (Path.view db s n) ((current.schema s).views.get? n)) :
    Item.Loads r' (Path.view db s n)
      (if .view ∈ kinds then
        ((current.schema s).views.overlay (reloaded.schema s).views).get? n
      else (current.schema s).views.get? n) := by
  rw [SortedMap.get?_overlay]
  rcases h.shows_or_same hreloaded hcurrent htable (p := ⟨db, s, .view, n⟩) ⟨rfl, hs, hn⟩ with
    ⟨⟨-, hkind⟩, hshows⟩ | ⟨hunchanged, hsame⟩
  · -- a view changes only if views are written and the reload has it
    obtain ⟨hkind, hsome⟩ := hkind.resolve_left fun h : DefinitionKind.view = .table => by cases h
    rw [if_pos hkind]
    obtain ⟨v, hv⟩ : ∃ v, (reloaded.schema s).views.get? n = some v :=
      Option.ne_none_iff_exists'.1 fun hnone => hsome (congrArg (Option.map Codec.write) hnone)
    rw [hv, Option.some_or, ← hv]
    exact Item.loads_of_showsAt Codec.read?_write_view hshows
  · have hafter : Item.Loads r' (Path.view db s n) ((current.schema s).views.get? n) :=
      hbefore.congr hsame
    split
    · rename_i hkind
      -- the reload has no other view of the name
      cases hget : (reloaded.schema s).views.get? n with
      | none => exact hafter
      | some v =>
        have hsome : (reloaded.schema s).text .view n ≠ none := by
          rw [Schema.text, hget]
          exact Option.some_ne_none _
        have htext : (reloaded.schema s).text .view n = (current.schema s).text .view n := by
          by_contra hne
          exact hunchanged ⟨hne, .inr ⟨hkind, hsome⟩⟩
        rw [Option.some_or, ← hget, Option.map_injective Schemas.write_view_injective htext]
        exact hafter
    · exact hafter

/-! ### Reaching the reload -/

/-- The schemas of a database that are there on either side of a reload. -/
def eitherSchema (db : String) (reloaded current : Schemas) (a : Path) : Prop :=
  ∃ s, (current.contains s = true ∨ reloaded.contains s = true) ∧ a = Path.schema db s

theorem isName_of_either (hreloaded : reloaded.Keyed) (hcurrent : current.Keyed)
    (hs : current.contains s = true ∨ reloaded.contains s = true) : Path.IsName s := by
  rcases hs with hs | hs
  · obtain ⟨x, hx⟩ := SortedMap.contains_iff.1 hs
    exact (hcurrent _ (current.get?_eq_some_iff.1 hx)).1
  · obtain ⟨x, hx⟩ := SortedMap.contains_iff.1 hs
    exact (hreloaded _ (reloaded.get?_eq_some_iff.1 hx)).1

/-- **Writing a reload is about the schemas on either side of it.** -/
theorem uses_write_then_drop (hreloaded : reloaded.Keyed) {write : Schema → Access Unit}
    (hwrite : ∀ x, (write x).Uses (StoreRequest.Concerns (Path.schema db x.name))) :
    ((Schemas.toBeWritten reloaded current).forM write >>= fun _ =>
      dropRemovedTables db reloaded current).Uses
        fun call => ∃ a, eitherSchema db reloaded current a ∧ StoreRequest.Concerns a call := by
  -- what is written is of the reloaded generation, and what is dropped is of the current one
  have hwritten : ∀ x ∈ Schemas.toBeWritten reloaded current, reloaded.contains x.name = true := by
    intro x hx
    obtain ⟨e, he, rfl⟩ := List.mem_map.1 (List.mem_filter.1 hx).1
    rw [Schemas.additions_eq (hreloaded e he).2.2]
    exact SortedMap.contains_iff.2 ⟨e.2, reloaded.get?_eq_some_iff.2 he⟩
  have hdropped : ∀ t ∈ Schemas.toBeDropped reloaded current, current.contains t.1 = true := by
    intro t ht
    obtain ⟨e, he, ht⟩ := List.mem_flatMap.1 ht
    obtain ⟨table, -, rfl⟩ := List.mem_map.1 ht
    exact SortedMap.contains_iff.2 ⟨e.2, current.get?_eq_some_iff.2 he⟩
  refine (Uses.forM fun x hx => (hwrite x).mono fun _ hcall => ?_).seq fun _ =>
    Uses.forM fun t ht => (uses_dropTable db t.1 t.2).mono fun _ hcall => ?_
  · exact ⟨_, ⟨x.name, .inr (hwritten x hx), rfl⟩, hcall⟩
  · exact ⟨_, ⟨t.1, .inl (hdropped t ht), rfl⟩, hcall⟩

/-- **A reload is reached**: of the schemas on either side of it, the tables are those of the reload
and the views are the given ones; and neither the tables that are the same on both sides nor anything
outside these schemas was touched. -/
structure ReloadReached (db : String) (reloaded current : Schemas)
    (views : String → SortedMap View) (r r' : Repository) : Prop where
  loaded : ∀ s, current.contains s = true ∨ reloaded.contains s = true →
    (loadSchema db s).run answer r'
      = (.ok { name := s, tables := (reloaded.schema s).tables, views := views s }, r')
  kept : ∀ s n, Path.IsName s → Path.IsName n →
    (current.schema s).tables.get? n = (reloaded.schema s).tables.get? n →
      SameAt (Path.table db s n) r r'
  outside : ∀ q, (∀ a, eitherSchema db reloaded current a → ¬ a.Covers q) →
    LeftAlone (eitherSchema db reloaded current) r r' q

/-- What is loaded after the changes of a reload. -/
theorem Changed.reloadReached (hreloaded : reloaded.Keyed) (hcurrent : current.Keyed)
    (htable : .table ∈ kinds) (h : Changed db (reloadChanges db kinds reloaded current) r r')
    (hloaded : ∀ s, current.contains s = true ∨ reloaded.contains s = true →
      (loadSchema db s).run answer r = (.ok (current.schema s), r))
    (houtside : ∀ q, (∀ a, eitherSchema db reloaded current a → ¬ a.Covers q) →
      LeftAlone (eitherSchema db reloaded current) r r' q) :
    ReloadReached db reloaded current (fun s => if .view ∈ kinds then
      (current.schema s).views.overlay (reloaded.schema s).views else (current.schema s).views)
      r r' := by
  refine ⟨fun s hs => ?_, fun s n hs hn => (h.table hreloaded hcurrent htable hs hn).2, houtside⟩
  have hname := isName_of_either hreloaded hcurrent hs
  obtain ⟨-, ⟨-, htables⟩, hviewNames, hviews⟩ := run_loadSchema_iff.1 (hloaded s hs)
  have hnames := (hreloaded.schema s).2
  -- name by name: first the tables, then the views
  refine run_loadSchema_iff.2 ⟨rfl, ⟨fun n hn => ?_, fun n hn => ?_⟩, fun n hn => ?_, fun n hn => ?_⟩
  · obtain ⟨t, ht⟩ := SortedMap.contains_iff.1 hn
    exact (hnames.1 _ (SortedMap.get?_eq_some_iff _ |>.1 ht)).1
  · exact (h.table hreloaded hcurrent htable hname hn).1 (htables n hn)
  · have hviewNames' : (reloaded.schema s).views.contains n = true → Path.IsName n := fun hn => by
      obtain ⟨v, hv⟩ := SortedMap.contains_iff.1 hn
      exact (hnames.2 _ (SortedMap.get?_eq_some_iff _ |>.1 hv)).1
    split at hn
    · rw [SortedMap.contains_overlay, Bool.or_eq_true] at hn
      exact hn.elim hviewNames' (hviewNames n)
    · exact hviewNames n hn
  · have hview := h.view hreloaded hcurrent htable hname hn (hviews n hn)
    split
    · rename_i hkind
      rwa [if_pos hkind] at hview
    · rename_i hkind
      rwa [if_neg hkind] at hview

/-- **Writing the difference to a reload reaches the reload.** Whatever schemas are stored and loaded
anew, and whichever calls are refused on the way: if the write after an alteration ends well, the
tables are those of the reload and the views those of the reload over the former ones; if the write
after a removal ends well, the tables are those of the reload and the views the former ones. -/
theorem persistReload_reaches (hcurrent : current.Keyed) (hreloaded : reloaded.Keyed)
    (hloaded : ∀ s, current.contains s = true ∨ reloaded.contains s = true →
      (loadSchema db s).run answer r = (.ok (current.schema s), r))
    (refusals : List (Option Error)) :
    (∀ s', (persistReloadAltered db reloaded current).run answerInTurn (r, refusals) = (.ok (), s') →
        ReloadReached db reloaded current
          (fun s => (current.schema s).views.overlay (reloaded.schema s).views) r s'.1)
      ∧ ∀ s', (persistReloadDropped db reloaded current).run answerInTurn (r, refusals)
          = (.ok (), s') →
        ReloadReached db reloaded current (fun s => (current.schema s).views) r s'.1 := by
  have hnames := hcurrent.haveNames
  have hnames' := hreloaded.haveNames
  -- in both cases: the changes that are made, and the schemas that the calls are about
  constructor
  · intro s' hs'
    obtain ⟨hchanged, houtside⟩ := Access.run_of_unsure
      ((makes_persistReloadAltered hnames' hnames r).and
        (Access.keeps_leftAlone (uses_write_then_drop hreloaded fun x => uses_alterSchema db x) r))
      refusals
    rw [hs'] at hchanged houtside
    exact (hchanged rfl).reloadReached hreloaded hcurrent (by decide) hloaded houtside
  · intro s' hs'
    obtain ⟨hchanged, houtside⟩ := Access.run_of_unsure
      ((makes_persistReloadDropped hnames' hnames r).and
        (Access.keeps_leftAlone (uses_write_then_drop hreloaded fun x => uses_alterSchemaTables db x) r))
      refusals
    rw [hs'] at hchanged houtside
    exact (hchanged rfl).reloadReached hreloaded hcurrent (by decide) hloaded houtside

/-- A schema with a table and a view, and its reload with another table and no view. -/
private def schemasBefore : Schemas :=
  SortedMap.ofList [("s", (Schema.ofTables "s" [{ name := "a" }]).putView ⟨"v", "1"⟩)]

private def schemasAfter : Schemas := SortedMap.ofList [("s", Schema.ofTables "s" [{ name := "b" }])]

private def storeBefore : Repository := .memory ⟨SortedMap.ofList
  [(Path.table "d" "s" "a", ""), (Path.activeVersion (Path.table "d" "s" "a"), "0"),
    (Path.version (Path.table "d" "s" "a") 0, Codec.write ({ name := "a" } : Table)),
    (Path.view "d" "s" "v", ""), (Path.activeVersion (Path.view "d" "s" "v"), "0"),
    (Path.version (Path.view "d" "s" "v") 0, Codec.write (View.mk "v" "1"))]⟩

private theorem loadSchema_before : (loadSchema "d" "s").run answer storeBefore
    = (.ok (schemasBefore.schema "s"), storeBefore) := by decide +kernel

private theorem persistReload_ok : ((persistReloadAltered "d" schemasAfter schemasBefore).run
    answerInTurn (storeBefore, [])).1 = .ok () := by decide +kernel

/-- The one table is dropped and the other one written, and the view stays. -/
theorem persistReload_reaches_over_drop :
    ∃ s', (persistReloadAltered "d" schemasAfter schemasBefore).run answerInTurn (storeBefore, [])
        = (.ok (), s')
      ∧ ReloadReached "d" schemasAfter schemasBefore
        (fun s => (schemasBefore.schema s).views.overlay (schemasAfter.schema s).views)
        storeBefore s'.1 := by
  -- both generations have the schema s and no other
  have hloaded : ∀ s, schemasBefore.contains s = true ∨ schemasAfter.contains s = true →
      (loadSchema "d" s).run answer storeBefore = (.ok (schemasBefore.schema s), storeBefore) := by
    have hkeys : schemasBefore.keys = ["s"] ∧ schemasAfter.keys = ["s"] := by decide +kernel
    intro s
    rw [← SortedMap.mem_keys_iff, ← SortedMap.mem_keys_iff, hkeys.1, hkeys.2, or_self,
      List.mem_singleton]
    rintro rfl
    exact loadSchema_before
  have hended : ∀ ended : Except Failure Unit × Repository × List (Option Error),
      ended.1 = .ok () → ∃ s', ended = (.ok (), s') := fun ended h => ⟨ended.2, Prod.ext h rfl⟩
  obtain ⟨s', hs'⟩ := hended _ persistReload_ok
  exact ⟨s', hs', (persistReload_reaches (by decide +kernel) (by decide +kernel) hloaded []).1 s' hs'⟩

end Stored

end ClusterCatalog
