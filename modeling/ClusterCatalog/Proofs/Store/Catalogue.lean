import ClusterCatalog.Proofs.Store.Refinement
import ClusterCatalog.Proofs.Store.Schemas
import ClusterCatalog.Store.Coordinator

/-!
# Changes of a catalogue

The changes of a catalogue are those of nested maps: a schema is put in or changed
(`Catalogue.put`, `Catalogue.change`), and a schema or a database is taken out. An operation on the
repository *performs* a change if it takes a repository that stands for a catalogue to one that stands
for the changed catalogue (`Catalogue.Performs`). The relation is closed under sequences and loops, so
it is shown once for each way of writing, and an operation performs the changes of its parts.
-/

namespace ClusterCatalog

open Plan Repository

/-- The schema without a table. -/
def Schema.eraseTable (x : Schema) (name : String) : Schema := { x with tables := x.tables.erase name }

/-- The schema without a view. -/
def Schema.eraseView (x : Schema) (name : String) : Schema := { x with views := x.views.erase name }

namespace Schema

variable (x : Schema) (kind : DefinitionKind) (name : String)

/-- A table that is put in has its own text; all other definitions keep theirs. -/
theorem text_putTable (t : Table) :
    (x.putTable t).text kind name
      = if kind = .table ∧ name = t.name then some (Codec.write t) else x.text kind name := by
  cases kind with
  | table =>
    show ((x.tables.insert t.name t).get? name).map Codec.write = _
    rw [SortedMap.get?_insert]
    by_cases h : name = t.name <;> simp [h, text]
  | view => rfl

/-- The same for a view. -/
theorem text_putView (v : View) :
    (x.putView v).text kind name
      = if kind = .view ∧ name = v.name then some (Codec.write v) else x.text kind name := by
  cases kind with
  | table => rfl
  | view =>
    show ((x.views.insert v.name v).get? name).map Codec.write = _
    rw [SortedMap.get?_insert]
    by_cases h : name = v.name <;> simp [h, text]

/-- A table that is taken out has no text. -/
theorem text_eraseTable (table : String) :
    (x.eraseTable table).text kind name
      = if kind = .table ∧ name = table then none else x.text kind name := by
  cases kind with
  | table =>
    show ((x.tables.erase table).get? name).map Codec.write = _
    rw [SortedMap.get?_erase]
    by_cases h : name = table <;> simp [h, text]
  | view => rfl

/-- The same for a view. -/
theorem text_eraseView (view : String) :
    (x.eraseView view).text kind name
      = if kind = .view ∧ name = view then none else x.text kind name := by
  cases kind with
  | table => rfl
  | view =>
    show ((x.views.erase view).get? name).map Codec.write = _
    rw [SortedMap.get?_erase]
    by_cases h : name = view <;> simp [h, text]

end Schema

namespace Catalogue

variable {c : Catalogue} {db schema : String}

/-! ### Changes -/

/-- The catalogue with a database, empty if it is new. -/
def addDatabase (c : Catalogue) (db : String) : Catalogue := c.insert db ((c.get? db).getD ∅)

/-- **A schema is put in**: what becomes of the schema that is there, or else of an empty one. -/
def put (c : Catalogue) (db schema : String) (f : Schema → Schema) : Catalogue :=
  c.insert db (((c.get? db).getD ∅).insert schema (f (c.schema db schema)))

/-- **A schema is changed**, if it is there. -/
def change (c : Catalogue) (db schema : String) (f : Schema → Schema) : Catalogue :=
  if (c.schema? db schema).isSome then c.put db schema f else c

/-- A schema is taken out. -/
def dropSchema (c : Catalogue) (db schema : String) : Catalogue :=
  match c.get? db with
  | some schemas => c.insert db (schemas.erase schema)
  | none => c

/-- A database that is added has no schemas yet, or those that it had. -/
theorem schema?_addDatabase (db' name : String) :
    (c.addDatabase db).schema? db' name = c.schema? db' name := by
  unfold schema? addDatabase
  rw [SortedMap.get?_insert]
  by_cases h : db' = db
  · subst h
    rw [if_pos rfl]
    cases c.get? db' <;> rfl
  · rw [if_neg h]

/-- A schema that is put in replaces the one of its name, or comes to be. -/
theorem schema?_put (f : Schema → Schema) (db' name : String) :
    (c.put db schema f).schema? db' name
      = if db' = db ∧ name = schema then some (f (c.schema db schema)) else c.schema? db' name := by
  unfold put
  generalize f (c.schema db schema) = x
  unfold schema?
  rw [SortedMap.get?_insert]
  -- databases of other names are not looked at, and neither are other schemas of the same one
  by_cases hdb : db' = db
  · subst hdb
    rw [if_pos rfl, Option.bind_some, SortedMap.get?_insert]
    by_cases hname : name = schema
    · simp [hname]
    · rw [if_neg hname, if_neg fun h => hname h.2]
      cases c.get? db' <;> rfl
  · rw [if_neg hdb, if_neg fun h => hdb h.1]

/-- A change reaches a schema that is there, and does not make one. -/
theorem schema?_change (f : Schema → Schema) (db' name : String) :
    (c.change db schema f).schema? db' name
      = if db' = db ∧ name = schema then (c.schema? db schema).map f else c.schema? db' name := by
  unfold change
  split
  · rename_i hsome
    obtain ⟨x, hx⟩ := Option.isSome_iff_exists.1 hsome
    rw [schema?_put, Catalogue.schema, hx]
    rfl
  · rename_i hnone
    rw [Option.not_isSome_iff_eq_none] at hnone
    split
    · rename_i h
      rw [h.1, h.2, hnone]
      rfl
    · rfl

/-- A schema that is dropped is gone, and no other one is. -/
theorem schema?_dropSchema (db' name : String) :
    (c.dropSchema db schema).schema? db' name
      = if db' = db ∧ name = schema then none else c.schema? db' name := by
  unfold dropSchema
  -- without its database there is nothing to be dropped
  cases hdb : c.get? db with
  | none =>
    show c.schema? db' name = _
    split
    · rename_i h
      rw [h.1, schema?, hdb]
      rfl
    · rfl
  | some schemas =>
    show schema? (c.insert db (schemas.erase schema)) db' name = _
    unfold schema?
    rw [SortedMap.get?_insert]
    by_cases heq : db' = db
    · subst heq
      rw [if_pos rfl, Option.bind_some, SortedMap.get?_erase, hdb]
      by_cases hname : name = schema <;> simp [hname]
    · rw [if_neg heq, if_neg fun h => heq h.1]

/-- With a database its schemas are gone. -/
theorem schema?_erase (db' name : String) :
    Catalogue.schema? (c.erase db) db' name = if db' = db then none else c.schema? db' name := by
  unfold schema?
  rw [SortedMap.get?_erase]
  split <;> rfl

/-- The definitions of a schema depend on the schema only. -/
theorem text_eq_of_schema? {c' : Catalogue} {p : Place}
    (h : c'.schema? p.db p.schema = c.schema? p.db p.schema) : c'.text p = c.text p := by
  rw [text, h, text]

/-- An empty schema has the same definitions as none. -/
theorem schema_text (c : Catalogue) (p : Place) :
    (c.schema p.db p.schema).text p.kind p.name = c.text p := by
  unfold text Catalogue.schema
  cases c.schema? p.db p.schema with
  | none => cases p.kind <;> rfl
  | some x => rfl

/-- What is put in decides about the definitions of its own schema. -/
theorem text_put (f : Schema → Schema) (p : Place) :
    (c.put db schema f).text p
      = if p.db = db ∧ p.schema = schema then (f (c.schema db schema)).text p.kind p.name
        else c.text p := by
  rw [text, schema?_put]
  split <;> rfl

/-- A change that takes a definition out takes it out of its own schema. -/
theorem text_change {f : Schema → Schema} {kind : DefinitionKind} {name : String}
    (hf : ∀ x k n, (f x).text k n = if k = kind ∧ n = name then none else x.text k n) (p : Place) :
    (c.change db schema f).text p = if p = ⟨db, schema, kind, name⟩ then none else c.text p := by
  obtain ⟨pdb, pschema, pkind, pname⟩ := p
  rw [text, schema?_change, text]
  -- in another schema nothing is changed; in this one the change says what becomes of a definition
  by_cases hplace : pdb = db ∧ pschema = schema
  · obtain ⟨rfl, rfl⟩ := hplace
    rw [if_pos ⟨rfl, rfl⟩]
    cases c.schema? pdb pschema with
    | none => simp
    | some x => simp [hf]
  · rw [if_neg hplace, if_neg]
    intro h
    obtain ⟨rfl, rfl, -⟩ := Place.mk.inj h
    exact hplace ⟨rfl, rfl⟩

/-- **What a definition put into a schema** leaves at the places. -/
theorem text_put_definition {f : Schema → Schema} {kind : DefinitionKind} {name v : String}
    (hf : ∀ x k n, (f x).text k n = if k = kind ∧ n = name then some v else x.text k n) (p : Place) :
    (c.put db schema f).text p = if p = ⟨db, schema, kind, name⟩ then some v else c.text p := by
  obtain ⟨pdb, pschema, pkind, pname⟩ := p
  rw [text_put]
  -- another schema, another definition of this schema, and the definition itself
  by_cases hplace : pdb = db ∧ pschema = schema
  · obtain ⟨rfl, rfl⟩ := hplace
    rw [if_pos ⟨rfl, rfl⟩, hf, schema_text c ⟨pdb, pschema, pkind, pname⟩]
    by_cases hdefinition : pkind = kind ∧ pname = name
    · obtain ⟨rfl, rfl⟩ := hdefinition
      rw [if_pos ⟨rfl, rfl⟩, if_pos rfl]
    · rw [if_neg hdefinition, if_neg]
      intro h
      obtain ⟨-, -, rfl, rfl⟩ := Place.mk.inj h
      exact hdefinition ⟨rfl, rfl⟩
  · rw [if_neg hplace, if_neg]
    intro h
    obtain ⟨rfl, rfl, -⟩ := Place.mk.inj h
    exact hplace ⟨rfl, rfl⟩

/-! ### Names -/

/-- An empty catalogue has nothing without a name. -/
theorem named_empty : Named ∅ where
  schema _ _ _ h := by cases h
  definition _ h := by cases h

/-- A change keeps the names if what it leaves in each place has a name. -/
theorem Named.of_schema? {c' : Catalogue} (hc : c.Named)
    (h : ∀ db name, c'.schema? db name = c.schema? db name ∨ ∀ x, c'.schema? db name = some x →
      Path.IsName name ∧ x.name = name ∧ ∀ kind n, (x.text kind n).isSome → Path.IsName n) :
    c'.Named := by
  -- of each schema it is known that it is as before, or that it has names
  constructor
  · intro db name x hx
    rcases h db name with heq | hnew
    · exact hc.schema db name x (heq ▸ hx)
    · exact ⟨(hnew x hx).1, (hnew x hx).2.1⟩
  · intro p hsome
    rcases h p.db p.schema with heq | hnew
    · exact hc.definition p (text_eq_of_schema? heq ▸ hsome)
    · rw [text] at hsome
      cases hx : c'.schema? p.db p.schema with
      | none => rw [hx] at hsome; cases hsome
      | some x =>
        rw [hx] at hsome
        exact (hnew x hx).2.2 p.kind p.name hsome

/-- A database may be added. -/
theorem Named.addDatabase (hc : c.Named) : (c.addDatabase db).Named :=
  hc.of_schema? fun db' name => .inl (schema?_addDatabase db' name)

/-- Some schemas are gone. -/
theorem Named.of_gone {c' : Catalogue} (hc : c.Named) {gone : String → String → Prop}
    [∀ db name, Decidable (gone db name)]
    (h : ∀ db name, c'.schema? db name = if gone db name then none else c.schema? db name) :
    c'.Named := by
  refine hc.of_schema? fun db name => ?_
  rw [h]
  split
  · exact .inr fun x hx => by cases hx
  · exact .inl rfl

/-- A schema may be put in under a name, if what is new in it has names. -/
theorem Named.put (hc : c.Named) (hschema : Path.IsName schema) {f : Schema → Schema}
    (hname : ∀ x, (f x).name = x.name)
    (htext : ∀ x kind n, ((f x).text kind n).isSome → (x.text kind n).isSome ∨ Path.IsName n) :
    (c.put db schema f).Named := by
  refine hc.of_schema? fun db' name => ?_
  rw [schema?_put]
  split
  · rename_i h
    obtain ⟨rfl, rfl⟩ := h
    refine .inr fun x hx => ?_
    obtain rfl := Option.some.inj hx
    refine ⟨hschema, (hname _).trans (hc.schema_name db' name), fun kind n hsome => ?_⟩
    -- a definition was there before, or it is new and has a name
    rcases htext _ kind n hsome with hold | hn
    · exact hc.definition ⟨db', name, kind, n⟩ (schema_text c ⟨db', name, kind, n⟩ ▸ hold)
    · exact hn
  · exact .inl rfl

/-- A change that makes no definition may be made. -/
theorem Named.change (hc : c.Named) {f : Schema → Schema} (hname : ∀ x, (f x).name = x.name)
    (htext : ∀ x kind n, ((f x).text kind n).isSome → (x.text kind n).isSome) :
    (c.change db schema f).Named := by
  unfold Catalogue.change
  split
  · rename_i hsome
    obtain ⟨x, hx⟩ := Option.isSome_iff_exists.1 hsome
    exact hc.put (hc.schema db schema x hx).1 hname fun x kind n h => .inl (htext x kind n h)
  · exact hc

/-! ### Performing a change -/

/-- **An operation performs a change**: where a repository stands for a catalogue, the operation ends
well and the repository stands for the changed catalogue. The paths are those of the items that it
writes to. -/
def Performs (p : Access Unit) (paths : List Path) (f : Catalogue → Catalogue) : Prop :=
  ∀ r written c, StoredIn r written c → c.Named →
    (∀ path, (written ++ paths).count path ≤ maxRevision) →
      p.Keeps sure (fun result s' => result = .ok () ∧ StoredIn s' (written ++ paths) (f c)
        ∧ (f c).Named) r

/-- To perform a change is to refine it, where names are part of what a repository stands for. -/
theorem performs_iff {p : Access Unit} {paths : List Path} {f : Catalogue → Catalogue} :
    Performs p paths f ↔ Access.Refines (fun r written c => StoredIn r written c ∧ c.Named) p paths f :=
  ⟨fun h r written c hr => h r written c hr.1 hr.2, fun h r written c hr hc => h r written c ⟨hr, hc⟩⟩

/-- One operation after the other performs one change after the other. -/
theorem Performs.seq {p q : Access Unit} {paths paths' : List Path} {f g : Catalogue → Catalogue}
    (hp : Performs p paths f) (hq : Performs q paths' g) :
    Performs (p >>= fun _ => q) (paths ++ paths') fun c => g (f c) :=
  performs_iff.2 ((performs_iff.1 hp).seq (performs_iff.1 hq))

/-- A loop performs the changes of its rounds. -/
theorem Performs.forM {α : Type} {p : α → Access Unit} {paths : α → List Path}
    {f : α → Catalogue → Catalogue} {l : List α} (h : ∀ a ∈ l, Performs (p a) (paths a) (f a)) :
    Performs (l.forM p) (l.flatMap paths) fun c => l.foldl (fun c a => f a c) c :=
  performs_iff.2 (.forM fun a ha => performs_iff.1 (h a ha))

/-- A loop that writes to no item. -/
theorem Performs.forM_nil {α : Type} {p : α → Access Unit} {f : α → Catalogue → Catalogue} {l : List α}
    (h : ∀ a ∈ l, Performs (p a) [] (f a)) :
    Performs (l.forM p) [] fun c => l.foldl (fun c a => f a c) c :=
  performs_iff.2 (.forM_nil fun a ha => performs_iff.1 (h a ha))

/-! ### The ways of writing -/

/-- No definition is above a database. -/
theorem not_path_covers_database {p : Place} (hp : p.Named) {db : String} (hdb : Path.IsName db) :
    ¬ p.path.Covers (Path.database db) := by
  by_cases heq : p.db = db
  · subst heq
    exact ((Place.database_covers_schema p.db p.schema).isAbove_of_isAbove
      p.schema_isAbove_path).not_covers
  · refine ((Place.apart_database hp.1 hdb heq).mono ?_ (.refl _)).1
    exact (Place.database_covers_schema p.db p.schema).trans p.schema_covers_path

/-- No definition is above the tables of a schema. -/
theorem not_path_covers_tables {p : Place} (hp : p.Named) (hdb : Path.IsName db)
    (hschema : Path.IsName schema) : ¬ p.path.Covers (Path.tables db schema) := by
  by_cases heq : db = p.db ∧ schema = p.schema
  · obtain ⟨pdb, pschema, kind, name⟩ := p
    obtain ⟨rfl, rfl⟩ := heq
    cases kind with
    | table => exact (Path.isAbove_child _ _).not_covers
    | view =>
      -- what is below the views is not above the tables
      have hapart : (Path.child (Path.schema db schema) "views").Apart (Path.tables db schema) :=
        Path.apart_child (by decide) (by decide) (by decide)
      exact (hapart.mono (Path.isAbove_child _ _).covers (.refl _)).1
  · exact ((Place.apart_schema hp.1 hdb hp.2.1 hschema heq).mono p.schema_covers_path
      (Path.isAbove_child _ _).covers).1

/-- A schema covers the tables of its own only. -/
theorem schema_covers_tables_iff {db' schema' : String} (hdb : Path.IsName db)
    (hschema : Path.IsName schema) (hdb' : Path.IsName db') (hschema' : Path.IsName schema') :
    (Path.schema db' schema').Covers (Path.tables db schema) ↔ db' = db ∧ schema' = schema := by
  constructor
  · intro hcovers
    by_contra hne
    have hapart := Place.apart_schema hdb hdb' hschema hschema' hne
    exact (hapart.mono (Path.isAbove_child _ _).covers (.refl _)).2 hcovers
  · rintro ⟨rfl, rfl⟩
    exact (Path.isAbove_child _ _).covers

/-- What is announced lies apart from all schemas. -/
theorem apart_coordinator (db' name : String) :
    (Path.coordinator db).Apart (Path.schema db' name) := by
  have hroots : (Path.child "" "states").Apart (Path.child "" "metadata") :=
    Path.apart_child (by decide) (by decide) (by decide)
  have hstates : (Path.child "" "states").Covers Path.coordinatorRoot :=
    (Path.isAbove_child _ "listener_coordinator").covers
  have hmetadata : (Path.child "" "metadata").Covers (Path.database db') :=
    (Path.isAbove_child Path.metadataRoot db').covers
  exact hroots.mono (hstates.trans (Path.isAbove_child _ _).covers)
    (hmetadata.trans (Place.database_covers_schema db' name))

/-- A notification is no part of the catalogue. -/
theorem performs_notify (db : String) (event : DatabaseEvent) :
    Performs (Coordinator.publish db event) [] id := by
  intro r written c hr hc _
  refine Access.keeps_persist.2 ⟨trivial, ⟨rfl, ?_, hc⟩, fun _ he => he.elim⟩
  rw [List.append_nil]
  refine hr.persist (fun p _ => ?_) (fun db' name _ _ => ?_) (fun _ => rfl) _
  · exact ((apart_coordinator p.db p.schema).mono (.refl _) p.schema_covers_path).2
  · exact (or_iff_left (apart_coordinator db' name).2).symm

/-- **A database is added** by writing its node. -/
theorem performs_addDatabase (hdb : Path.IsName db) :
    Performs (Stored.addDatabase db) [] (·.addDatabase db) := by
  intro r written c hr hc _
  refine Access.keeps_persist.2 ⟨trivial, ⟨rfl, ?_, hc.addDatabase⟩, fun _ he => he.elim⟩
  rw [List.append_nil]
  refine hr.persist (fun p hp => not_path_covers_database hp hdb) (fun db' name hdb' _ => ?_)
    (fun p => text_eq_of_schema? (schema?_addDatabase _ _)) _
  -- no schema covers the node of a database
  rw [schema?_addDatabase, or_iff_left]
  intro hcovers
  by_cases heq : db' = db
  · subst heq
    have habove : (Path.database db').IsAbove (Path.schema db' name) :=
      (Path.isAbove_child _ _).covers.isAbove_of_isAbove (Path.isAbove_child _ _)
    exact habove.not_covers hcovers
  · exact ((Place.apart_database hdb' hdb heq).mono (Place.database_covers_schema db' name)
      (.refl _)).1 hcovers

/-- **A node is removed** that covers all of some schemas and is apart from the others. -/
theorem performs_drop {x : Path} {f : Catalogue → Catalogue} {gone : String → String → Prop}
    [∀ db name, Decidable (gone db name)]
    (hchild : ∃ parent name, Path.IsName name ∧ x = Path.child parent name)
    (hcases : ∀ db name, Path.IsName db → Path.IsName name →
      x.Covers (Path.schema db name) ∧ gone db name ∨ x.Apart (Path.schema db name) ∧ ¬ gone db name)
    (hgone : ∀ (c : Catalogue) db name,
      (f c).schema? db name = if gone db name then none else c.schema? db name) :
    Performs (Access.delete x) [] f := by
  intro r written c hr hc _
  -- a place goes with its schema
  have hplace : ∀ p : Place, p.Named →
      x.Covers p.path ∧ gone p.db p.schema ∨ x.Apart p.path ∧ ¬ gone p.db p.schema := by
    intro p hp
    rcases hcases p.db p.schema hp.1 hp.2.1 with ⟨hcovers, hp⟩ | ⟨hapart, hp⟩
    · exact .inl ⟨hcovers.trans p.schema_covers_path, hp⟩
    · exact .inr ⟨hapart.mono (.refl _) p.schema_covers_path, hp⟩
  refine Access.keeps_delete.2 ⟨trivial, ⟨rfl, ?_, hc.of_gone (hgone c)⟩, fun _ he => he.elim⟩
  rw [List.append_nil]
  refine hr.delete hchild (fun p hp => (hplace p hp).imp And.left And.left)
    (fun db name hdb hname => ?_) fun p hp => ?_
  · rw [hgone]
    rcases hcases db name hdb hname with ⟨hcovers, hdb⟩ | ⟨hapart, hdb⟩
    · rw [if_pos hdb]
      exact iff_of_false (fun h => by cases h) fun h => h.2 hcovers
    · rw [if_neg hdb]
      exact (and_iff_left hapart.1).symm
  · rw [text, hgone]
    rcases hplace p hp with ⟨hcovers, hp⟩ | ⟨hapart, hp⟩
    · rw [if_pos hp, if_pos hcovers]
      rfl
    · rw [if_neg hp, if_neg hapart.1, text]

/-- **A database is dropped** by removing its node with all below it. -/
theorem performs_dropDatabase (hdb : Path.IsName db) :
    Performs (Stored.dropDatabase db) [] fun c => SortedMap.erase c db := by
  have hcases : ∀ db' name, Path.IsName db' → Path.IsName name →
      (Path.database db).Covers (Path.schema db' name) ∧ db' = db
        ∨ (Path.database db).Apart (Path.schema db' name) ∧ ¬ db' = db := by
    intro db' name hdb' _
    by_cases heq : db' = db
    · exact .inl ⟨heq ▸ Place.database_covers_schema db' name, heq⟩
    · have hapart := Place.apart_database hdb hdb' (Ne.symm heq)
      exact .inr ⟨hapart.mono (.refl _) (Place.database_covers_schema db' name), heq⟩
  exact performs_drop ⟨_, db, hdb, rfl⟩ hcases fun c => schema?_erase

/-- **A schema is added** by writing the node above its tables; one that is there stays as it is. -/
theorem performs_addSchema (hdb : Path.IsName db) (hschema : Path.IsName schema) :
    Performs (Stored.addSchema db schema) [] fun c => c.put db schema id := by
  intro r written c hr hc _
  refine Access.keeps_persist.2 ⟨trivial, ⟨rfl, ?_, hc.put hschema (fun _ => rfl)
    fun _ _ _ h => .inl h⟩, fun _ he => he.elim⟩
  rw [List.append_nil]
  -- the node is above no definition, and below the schema that it makes
  refine hr.persist (fun p hp => not_path_covers_tables hp hdb hschema)
    (fun db' name hdb' hname => ?_) (fun p => ?_) _
  · rw [schema?_put, schema_covers_tables_iff hdb hschema hdb' hname]
    split <;> simp [*]
  · rw [text_put]
    split
    · rename_i h
      rw [← h.1, ← h.2]
      exact schema_text c p
    · rfl

/-- **A schema is dropped** by removing its node with all below it. -/
theorem performs_dropSchema (hdb : Path.IsName db) (hschema : Path.IsName schema) :
    Performs (Stored.dropSchema db schema) [] (·.dropSchema db schema) := by
  have hcases : ∀ db' name, Path.IsName db' → Path.IsName name →
      (Path.schema db schema).Covers (Path.schema db' name) ∧ (db' = db ∧ name = schema)
        ∨ (Path.schema db schema).Apart (Path.schema db' name) ∧ ¬ (db' = db ∧ name = schema) := by
    intro db' name hdb' hname
    by_cases heq : db' = db ∧ name = schema
    · obtain ⟨rfl, rfl⟩ := heq
      exact .inl ⟨.refl _, rfl, rfl⟩
    · exact .inr ⟨Place.apart_schema hdb hdb' hschema hname heq, heq⟩
  exact performs_drop ⟨_, schema, hschema, rfl⟩ hcases fun c => schema?_dropSchema

/-! ### Definitions -/

/-- **Publishing a definition** puts it into its schema. -/
theorem performs_publish {p : Place} (hp : p.Named) {v : String} {f : Schema → Schema}
    (hname : ∀ x, (f x).name = x.name)
    (htext : ∀ x k n, (f x).text k n = if k = p.kind ∧ n = p.name then some v else x.text k n) :
    Performs (Item.publish p.path v >>= fun _ => pure ()) [p.path] fun c => c.put p.db p.schema f := by
  intro r written c hr hc hcount
  -- the write that is counted is this one, so a number is left for it
  have hlt : written.count p.path < maxRevision := by
    have hle := hcount p.path
    rw [List.count_append, List.count_singleton_self] at hle
    exact hle
  have hschema : ∀ db' name, ((c.put p.db p.schema f).schema? db' name).isSome
      ↔ (c.schema? db' name).isSome ∨ db' = p.db ∧ name = p.schema := fun db' name => by
    rw [schema?_put]
    split <;> simp [*]
  refine (hr.publish hp hlt hschema (text_put_definition htext)).bind
    (fun _ s' hs' => ⟨rfl, hs'.2, ?_⟩) fun _ _ hs' => ?_
  · refine hc.put hp.2.1 hname fun x k n hsome => ?_
    rw [htext] at hsome
    split at hsome
    · rename_i h
      exact .inr (h.2 ▸ hp.2.2)
    · exact .inl hsome
  · obtain ⟨⟨_, h⟩, -⟩ := hs'
    cases h

/-- **Removing a definition** takes it out of its schema, which stays. -/
theorem performs_delete {p : Place} (hp : p.Named) {f : Schema → Schema}
    (hname : ∀ x, (f x).name = x.name)
    (htext : ∀ x k n, (f x).text k n = if k = p.kind ∧ n = p.name then none else x.text k n) :
    Performs (Access.delete p.path) [] fun c => c.change p.db p.schema f := by
  intro r written c hr hc _
  refine Access.keeps_delete.2 ⟨trivial, ⟨rfl, ?_, hc.change hname fun x k n hsome => ?_⟩,
    fun _ he => he.elim⟩
  · rw [List.append_nil]
    -- definitions lie apart, so of all of them only this one is removed
    have hcovers : ∀ q : Place, q.Named → (p.path.Covers q.path ↔ q = p) := by
      intro q hq
      constructor
      · intro hcovers
        by_contra hne
        exact (Place.apart_path hp hq (Ne.symm hne)).1 hcovers
      · rintro rfl
        exact .refl _
    refine hr.delete ⟨_, p.name, hp.2.2, rfl⟩ (fun q hq => ?_) (fun db' name hdb' hname' => ?_) fun q hq => ?_
    · by_cases heq : q = p
      · exact .inl ((hcovers q hq).2 heq)
      · exact .inr (Place.apart_path hp hq (Ne.symm heq))
    · -- the schema is above what is removed, and other schemas are apart from it
      have hkept : ¬ p.path.Covers (Path.schema db' name) := by
        by_cases heq : db' = p.db ∧ name = p.schema
        · obtain ⟨rfl, rfl⟩ := heq
          exact p.schema_isAbove_path.not_covers
        · exact ((Place.apart_schema hp.1 hdb' hp.2.1 hname' heq).mono p.schema_covers_path (.refl _)).1
      rw [schema?_change, and_iff_left hkept]
      split
      · rename_i h
        rw [h.1, h.2, Option.isSome_map]
      · rfl
    · rw [text_change htext]
      exact if_congr (hcovers q hq).symm rfl rfl
  · rw [htext] at hsome
    split at hsome
    · cases hsome
    · exact hsome

/-- **Tables are put in** one after the other, and each of them is written to once. -/
theorem performs_persistTables (hdb : Path.IsName db) (hschema : Path.IsName schema)
    {tables : List Table} (htables : ∀ t ∈ tables, Path.IsName t.name) :
    Performs (Stored.persistTables db schema tables)
      (tables.map fun t => Path.table db schema t.name)
      fun c => tables.foldl (fun c t => c.put db schema fun x => x.putTable t) c := by
  rw [List.map_eq_flatMap]
  refine Performs.forM fun t ht => ?_
  exact performs_publish (p := ⟨db, schema, .table, t.name⟩) ⟨hdb, hschema, htables t ht⟩
    (fun _ => rfl) fun x k n => x.text_putTable k n t

/-- So are views. -/
theorem performs_persistViews (hdb : Path.IsName db) (hschema : Path.IsName schema)
    {views : List View} (hviews : ∀ v ∈ views, Path.IsName v.name) :
    Performs (Stored.persistViews db schema views)
      (views.map fun v => Path.view db schema v.name)
      fun c => views.foldl (fun c v => c.put db schema fun x => x.putView v) c := by
  rw [List.map_eq_flatMap]
  refine Performs.forM fun v hv => ?_
  exact performs_publish (p := ⟨db, schema, .view, v.name⟩) ⟨hdb, hschema, hviews v hv⟩
    (fun _ => rfl) fun x k n => x.text_putView k n v

/-- A table is taken out by removing its node with all below it. -/
theorem performs_dropTable (hdb : Path.IsName db) (hschema : Path.IsName schema) {name : String}
    (hname : Path.IsName name) :
    Performs (Stored.dropTable db schema name) [] fun c => c.change db schema fun x => x.eraseTable name :=
  performs_delete (p := ⟨db, schema, .table, name⟩) ⟨hdb, hschema, hname⟩ (fun _ => rfl)
    fun x k n => x.text_eraseTable k n name

/-- So is a view. -/
theorem performs_dropView (hdb : Path.IsName db) (hschema : Path.IsName schema) {name : String}
    (hname : Path.IsName name) :
    Performs (Stored.dropView db schema name) [] fun c => c.change db schema fun x => x.eraseView name :=
  performs_delete (p := ⟨db, schema, .view, name⟩) ⟨hdb, hschema, hname⟩ (fun _ => rfl)
    fun x k n => x.text_eraseView k n name

end Catalogue

end ClusterCatalog
