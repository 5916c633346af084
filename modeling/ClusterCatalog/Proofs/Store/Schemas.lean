import ClusterCatalog.Proofs.Json.Codec
import ClusterCatalog.Proofs.Store.Orderly

/-!
# What is stored of schemas

A `Catalogue` is what the stored schemas amount to: for each database its schemas, and for each schema
its tables and views by name. `Catalogue.StoredIn` is the relation between a catalogue and the tree of
nodes that stands for it. A definition has a place (`Place`), and no place is above another one, so
the relation speaks of each place alone: the item at it is in order, few enough revisions of it were
written, and it shows the text of the definition if there is one.

* `Catalogue.StoredIn.publish`, `Catalogue.StoredIn.persist`, `Catalogue.StoredIn.delete` — what the
  three ways of writing do to the relation;
* `Catalogue.StoredIn.reads_schemaNames`, `Catalogue.StoredIn.reads_loadSchema` — what is loaded is the
  catalogue.
-/

namespace ClusterCatalog

open Plan Repository

/-! ### Places -/

/-- The two kinds of definitions in a schema. -/
inductive DefinitionKind where
  | table
  | view
deriving DecidableEq

/-- The node that holds the definitions of a kind. -/
def DefinitionKind.node : DefinitionKind → String
  | table => "tables"
  | view => "views"

/-- **The place of a definition.** -/
structure Place where
  db : String
  schema : String
  kind : DefinitionKind
  name : String
deriving DecidableEq

namespace Place

variable {p q : Place}

/-- The path of the item at a place. -/
def path (p : Place) : Path := Path.child (Path.child (Path.schema p.db p.schema) p.kind.node) p.name

/-- Whether a place consists of names. -/
def Named (p : Place) : Prop := Path.IsName p.db ∧ Path.IsName p.schema ∧ Path.IsName p.name

theorem isName_node (kind : DefinitionKind) : Path.IsName kind.node := by
  cases kind <;> decide

theorem schema_covers_path (p : Place) : (Path.schema p.db p.schema).Covers p.path :=
  (Path.isAbove_child _ _).covers.trans (Path.isAbove_child _ _).covers

theorem schema_isAbove_path (p : Place) : (Path.schema p.db p.schema).IsAbove p.path :=
  (Path.isAbove_child _ p.kind.node).covers.isAbove_of_isAbove (Path.isAbove_child _ _)

theorem database_covers_schema (db schema : String) :
    (Path.database db).Covers (Path.schema db schema) :=
  (Path.isAbove_child _ _).covers.trans (Path.isAbove_child _ _).covers

theorem path_ne_empty (p : Place) : p.path ≠ "" := Path.child_ne_empty _ _

theorem apart_database {a b : String} (ha : Path.IsName a) (hb : Path.IsName b) (hne : a ≠ b) :
    (Path.database a).Apart (Path.database b) := Path.apart_child ha.2 hb.2 hne

/-- Different schemas of a database are apart, whatever the database is called. -/
theorem apart_schema_of_ne {db schema schema' : String} (hschema : Path.IsName schema)
    (hschema' : Path.IsName schema') (hne : schema ≠ schema') :
    (Path.schema db schema).Apart (Path.schema db schema') := Path.apart_child hschema.2 hschema'.2 hne

/-- Different schemas are apart. -/
theorem apart_schema {db db' schema schema' : String} (hdb : Path.IsName db)
    (hdb' : Path.IsName db') (hschema : Path.IsName schema) (hschema' : Path.IsName schema')
    (hne : ¬ (db' = db ∧ schema' = schema)) :
    (Path.schema db schema).Apart (Path.schema db' schema') := by
  by_cases heq : db' = db
  · subst heq
    exact apart_schema_of_ne hschema hschema' fun h => hne ⟨rfl, h.symm⟩
  · exact (apart_database hdb hdb' (Ne.symm heq)).mono (database_covers_schema db schema)
      (database_covers_schema db' schema')

/-- Different definitions of one schema are apart, whatever the schema is called. -/
theorem apart_path_of_same_schema {db schema name name' : String} {kind kind' : DefinitionKind}
    (hname : Path.IsName name) (hname' : Path.IsName name')
    (hne : Place.mk db schema kind name ≠ ⟨db, schema, kind', name'⟩) :
    (path ⟨db, schema, kind, name⟩).Apart (path ⟨db, schema, kind', name'⟩) := by
  by_cases hkind : kind = kind'
  · subst hkind
    exact Path.apart_child hname.2 hname'.2 fun h : name = name' => hne (h ▸ rfl)
  · -- tables and views are kept below different nodes
    have hnode : kind.node ≠ kind'.node := by
      cases kind <;> cases kind' <;> first | exact absurd rfl hkind | decide
    exact (Path.apart_child (isName_node kind).2 (isName_node kind').2 hnode).mono
      (Path.isAbove_child _ _).covers (Path.isAbove_child _ _).covers

/-- **Different places are apart.** -/
theorem apart_path (hp : p.Named) (hq : q.Named) (hne : p ≠ q) : p.path.Apart q.path := by
  by_cases hschema : q.db = p.db ∧ q.schema = p.schema
  · obtain ⟨db, schema, kind, name⟩ := p
    obtain ⟨_, _, kind', name'⟩ := q
    obtain ⟨rfl, rfl⟩ := hschema
    exact apart_path_of_same_schema hp.2.2 hq.2.2 hne
  · exact (apart_schema hp.1 hq.1 hp.2.1 hq.2.1 hschema).mono p.schema_covers_path q.schema_covers_path

end Place

/-! ### Catalogues -/

/-- The text of a definition in a schema. -/
def Schema.text (x : Schema) : DefinitionKind → String → Option String
  | .table, name => (x.tables.get? name).map Codec.write
  | .view, name => (x.views.get? name).map Codec.write

/-- **A catalogue**: the schemas of the databases. -/
abbrev Catalogue := SortedMap Schemas

namespace Catalogue

variable {c c' : Catalogue} {r : Repository} {written : List Path}

/-- A schema of a database. -/
def schema? (c : Catalogue) (db schema : String) : Option Schema :=
  (c.get? db).bind fun schemas => schemas.get? schema

/-- A schema of a database, empty if there is none. -/
def schema (c : Catalogue) (db schema : String) : Schema :=
  (c.schema? db schema).getD { name := schema }

/-- The names of the schemas of a database. -/
def schemaNames (c : Catalogue) (db : String) : List String := ((c.get? db).getD ∅).keys

/-- The text of the definition at a place. -/
def text (c : Catalogue) (p : Place) : Option String :=
  (c.schema? p.db p.schema).bind fun x => x.text p.kind p.name

/-- **Everything in a catalogue has a name**, and each schema is under its own. -/
structure Named (c : Catalogue) : Prop where
  schema : ∀ db name x, c.schema? db name = some x → Path.IsName name ∧ x.name = name
  definition : ∀ p : Place, (c.text p).isSome → Path.IsName p.name

/-- **A repository stands for a catalogue**, where the items at the listed paths were written to, once
for each time they are listed. -/
structure StoredIn (r : Repository) (written : List Path) (c : Catalogue) : Prop where
  rooted : Rooted r
  schema : ∀ db name, Path.IsName db → Path.IsName name →
    ((r.query (Path.schema db name)).isSome ↔ (c.schema? db name).isSome)
  orderly : ∀ p : Place, p.Named → Item.Orderly r p.path
  below : ∀ p : Place, p.Named → Item.Below r p.path (written.count p.path)
  shows : ∀ p : Place, p.Named → Item.ShowsAt r p.path (c.text p)

theorem storedIn_empty (h : r.nodes = ∅) : StoredIn r [] ∅ where
  rooted := rooted_of_nodes_eq_empty h
  schema db name _ _ := by rw [query_of_nodes_eq_empty h]; exact Iff.rfl
  orderly p _ := Item.orderly_of_none fun q _ => query_of_nodes_eq_empty h q
  below p _ := Item.below_of_none (fun q _ => query_of_nodes_eq_empty h q) _
  shows p _ := query_of_nodes_eq_empty h p.path

/-! ### Writing -/

/-- **A node is written** that is not below the place of a definition. -/
theorem StoredIn.persist (h : StoredIn r written c) {x : Path}
    (hx : ∀ p : Place, p.Named → ¬ p.path.Covers x)
    (hschema : ∀ db name, Path.IsName db → Path.IsName name →
      ((c'.schema? db name).isSome ↔ (c.schema? db name).isSome ∨ (Path.schema db name).Covers x))
    (htext : ∀ p, c'.text p = c.text p) (v : String) : StoredIn (r.persist x v) written c' := by
  -- the node that is written is at or below no definition, so all definitions are as they were
  have hsame : ∀ p : Place, p.Named → SameAt p.path r (r.persist x v) := fun p hp q hq =>
    query_persist_of_not_covers r x v fun hqx => hx p hp (hq.trans hqx)
  refine ⟨h.rooted.persist, fun db name hdb hname => ?_, fun p hp => (h.orderly p hp).congr (hsame p hp),
    fun p hp => (h.below p hp).congr (hsame p hp), fun p hp => ?_⟩
  · rw [hschema db name hdb hname, ← h.schema db name hdb hname]
    constructor
    · intro hsome
      by_cases hcovers : (Path.schema db name).Covers x
      · exact .inr hcovers
      · rw [query_persist_of_not_covers r x v hcovers] at hsome
        exact .inl hsome
    · rintro (hsome | hcovers)
      · exact isSome_query_persist r x v hsome
      · exact isSome_query_persist_of_covers r x v (Path.child_ne_empty _ _) hcovers
  · rw [htext]
    exact (h.shows p hp).congr (hsame p hp)

/-- **A node is removed** with everything below it. -/
theorem StoredIn.delete (h : StoredIn r written c) {x : Path}
    (hchild : ∃ parent name, Path.IsName name ∧ x = Path.child parent name)
    (hx : ∀ p : Place, p.Named → x.Covers p.path ∨ x.Apart p.path)
    (hschema : ∀ db schema, Path.IsName db → Path.IsName schema →
      ((c'.schema? db schema).isSome
        ↔ (c.schema? db schema).isSome ∧ ¬ x.Covers (Path.schema db schema)))
    (htext : ∀ p : Place, p.Named → c'.text p = if x.Covers p.path then none else c.text p) :
    StoredIn (r.delete x) written c' := by
  obtain ⟨parent, name, hname, rfl⟩ := hchild
  -- a place at or below the node is vacant afterwards, and any other place is as it was
  have hgone : ∀ p : Place, (Path.child parent name).Covers p.path → ∀ q, p.path.Covers q →
      (r.delete (Path.child parent name)).query q = none := fun p hp q hq => by
    rw [query_delete_child _ _ hname, if_pos (hp.trans hq)]
  have hsame : ∀ p : Place, (Path.child parent name).Apart p.path →
      SameAt p.path r (r.delete (Path.child parent name)) := fun _ hp => sameAt_delete_child hname hp
  refine ⟨h.rooted.delete, fun db schema hdb hs => ?_, fun p hp => ?_, fun p hp => ?_, fun p hp => ?_⟩
  · rw [hschema db schema hdb hs, ← h.schema db schema hdb hs, query_delete_child _ _ hname]
    split <;> simp [*]
  · rcases hx p hp with hcovers | hapart
    · exact Item.orderly_of_none fun q hq => hgone p hcovers q hq.covers
    · exact (h.orderly p hp).congr (hsame p hapart)
  · rcases hx p hp with hcovers | hapart
    · exact Item.below_of_none (fun q hq => hgone p hcovers q hq.covers) _
    · exact (h.below p hp).congr (hsame p hapart)
  · rw [htext p hp]
    rcases hx p hp with hcovers | hapart
    · rw [if_pos hcovers]
      exact hgone p hcovers _ (.refl _)
    · rw [if_neg hapart.1]
      exact (h.shows p hp).congr (hsame p hapart)

/-- **A definition is published** at its place, as long as there is a number left for it. -/
theorem StoredIn.publish (h : StoredIn r written c) {p : Place} (hp : p.Named) {v : String}
    (hcount : written.count p.path < maxRevision)
    (hschema : ∀ db name, (c'.schema? db name).isSome
      ↔ (c.schema? db name).isSome ∨ db = p.db ∧ name = p.schema)
    (htext : ∀ q, c'.text q = if q = p then some v else c.text q) :
    (Item.publish p.path v).Keeps sure (fun result s' => (∃ switch, result = .ok switch)
      ∧ StoredIn s' (written ++ [p.path]) c') r := by
  have hpublish := Item.keeps_publish_orderly p.path_ne_empty (h.orderly p hp) v
  have hframe := Access.keeps_sameAt_within (Item.uses_publish p.path v) r
  have hrooted := Repository.keeps_rooted (Item.publish p.path v) h.rooted
  refine (hpublish.and (Access.keeps_of_unsure (hframe.and hrooted))).mono
    fun result s' ⟨⟨hwritten, hshows⟩, hsame, hrooted⟩ => ?_
  -- the numbers have not run out, so the text is published
  obtain ⟨switch, rfl⟩ : ∃ switch, result = .ok switch := by
    cases result with
    | ok switch => exact ⟨switch, rfl⟩
    | error f =>
      have hmax := h.below p hp _ (hwritten.error f rfl).2
      exact absurd (hmax.trans hcount) (Nat.lt_irrefl _)
  have hshows := hshows switch rfl
  have hapart : ∀ q : Place, q.Named → q ≠ p → SameAt q.path r s' := fun q hq hne =>
    hsame q.path (Place.apart_path hp hq hne.symm)
  -- of the other places everything stays as it is
  refine ⟨⟨switch, rfl⟩, hrooted, fun db name hdb hname => ?_, fun q hq => ?_, fun q hq => ?_,
    fun q hq => ?_⟩
  · rw [hschema]
    by_cases heq : db = p.db ∧ name = p.schema
    · obtain ⟨rfl, rfl⟩ := heq
      have hnode : (s'.query (Path.schema p.db p.schema)).isSome :=
        hrooted _ _ hshows.node (Path.child_ne_empty _ _) p.schema_isAbove_path
      exact iff_of_true hnode (.inr ⟨rfl, rfl⟩)
    · have hroot : SameAt (Path.schema db name) r s' := hsame _
        (((Place.apart_schema hp.1 hdb hp.2.1 hname heq).mono p.schema_covers_path (.refl _)))
      rw [hroot _ (.refl _), h.schema db name hdb hname, or_iff_left heq]
  · by_cases heq : q = p
    · exact heq ▸ hwritten.orderly
    · exact (h.orderly q hq).congr (hapart q hq heq)
  · by_cases heq : q = p
    · subst heq
      rw [List.count_append, List.count_singleton_self]
      exact hwritten.below _ (h.below q hq)
    · refine ((h.below q hq).congr (hapart q hq heq)).mono ?_
      rw [List.count_append]
      exact Nat.le_add_right _ _
  · rw [htext]
    split
    · rename_i heq
      exact heq ▸ hshows
    · rename_i heq
      exact (h.shows q hq).congr (hapart q hq heq)

/-! ### Loading -/

theorem text_table (c : Catalogue) (db schema name : String) :
    c.text ⟨db, schema, .table, name⟩ = ((c.schema db schema).tables.get? name).map Codec.write := by
  unfold text Catalogue.schema
  cases c.schema? db schema <;> rfl

theorem text_view (c : Catalogue) (db schema name : String) :
    c.text ⟨db, schema, .view, name⟩ = ((c.schema db schema).views.get? name).map Codec.write := by
  unfold text Catalogue.schema
  cases c.schema? db schema <;> rfl

theorem Named.schema_name (h : c.Named) (db name : String) : (c.schema db name).name = name := by
  unfold Catalogue.schema
  cases hschema : c.schema? db name with
  | none => rfl
  | some x => exact (h.schema db name x hschema).2

/-- What is found below the node of a kind of definitions is at a place. -/
theorem below_node (db schema : String) (kind : DefinitionKind) (name : String) :
    Path.below (Path.child (Path.schema db schema) kind.node) ++ name
      = (Place.mk db schema kind name).path := by
  exact Path.below_child_append (Place.isName_node kind) name

/-- **The names of the schemas are loaded**, in order. -/
theorem StoredIn.reads_schemaNames (h : StoredIn r written c) (hc : c.Named) {db : String}
    (hdb : Path.IsName db) : Access.Reads r (Stored.schemaNames db) (.ok (c.schemaNames db)) := by
  have hlisted : ∀ name, (c.schema? db name).isSome ↔ ((c.get? db).getD ∅).contains name = true := by
    intro name
    unfold schema? SortedMap.contains
    cases c.get? db <;> rfl
  have hbelow : ∀ name, Path.below (Path.schemas db) ++ name = Path.schema db name :=
    Path.below_child_append (by decide)
  -- the children of the node of schemas are the keys of the map, in the same order
  have hnames : r.children (Path.schemas db) = c.schemaNames db := by
    refine children_eq_keys hbelow fun name => ?_
    rw [← hlisted]
    constructor
    · exact fun hmem => (h.schema db name hdb hmem.1).1 hmem.2
    · intro hsome
      obtain ⟨x, hx⟩ := Option.isSome_iff_exists.1 hsome
      have hname := (hc.schema db name x hx).1
      exact ⟨hname, (h.schema db name hdb hname).2 hsome⟩
  exact hnames ▸ Access.reads_children _

/-- **A schema is loaded** with its tables and views; one that is not stored is empty. -/
theorem StoredIn.reads_loadSchema (h : StoredIn r written c) (hc : c.Named) {db schema : String}
    (hdb : Path.IsName db) (hschema : Path.IsName schema) :
    Access.Reads r (Stored.loadSchema db schema) (.ok (c.schema db schema)) := by
  have hnamed : ∀ (kind : DefinitionKind) (name : String), (c.text ⟨db, schema, kind, name⟩).isSome →
      Path.IsName name := fun kind name hsome => hc.definition ⟨db, schema, kind, name⟩ hsome
  have htables : Access.Reads r (Stored.loadTables db schema) (.ok (c.schema db schema).tables) := by
    refine Stored.reads_listed Codec.read?_write_table (below_node db schema .table)
      (fun name hcontains => hnamed .table name ?_) (fun name hname => ?_) fun _ => pure []
    · rw [text_table, Option.isSome_map]
      exact hcontains
    · rw [← text_table]
      exact h.shows ⟨db, schema, .table, name⟩ ⟨hdb, hschema, hname⟩
  have hviews : Access.Reads r (Stored.loadViews db schema) (.ok (c.schema db schema).views) := by
    refine Stored.reads_listed Codec.read?_write_view (below_node db schema .view)
      (fun name hcontains => hnamed .view name ?_) (fun name hname => ?_) fun _ => pure []
    · rw [text_view, Option.isSome_map]
      exact hcontains
    · rw [← text_view]
      exact h.shows ⟨db, schema, .view, name⟩ ⟨hdb, hschema, hname⟩
  refine htables.bind_ok (hviews.bind_ok ?_)
  -- the name of the loaded schema is the one that it is asked for
  have hloaded : (⟨schema, (c.schema db schema).tables, (c.schema db schema).views⟩ : Schema)
      = c.schema db schema := by
    have hname := hc.schema_name db schema
    revert hname
    generalize c.schema db schema = x
    rintro rfl
    rfl
  exact hloaded ▸ Access.reads_pure _

end Catalogue

end ClusterCatalog
