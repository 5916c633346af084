import ClusterCatalog.Proofs.Store.Reload

/-!
# Definitions written over stored ones

A schema that definitions are written into may hold others already. What is loaded of it afterwards
are the definitions that were written, laid over those that were loaded before.

* `Item.LaidOver` — a map is what is loaded if some values are laid over what is stored, with
  `Stored.run_loadTables_iff` and `Stored.run_loadViews_iff` for definitions that were written.
  Nothing is supposed of the repository: what is stored beside the written values may be unreadable,
  and then nothing is loaded.
* `Access.Creates` — an operation that ends well leaves a node. A schema is listed if it has a node, so
  this says which schemas are listed after an operation (`Stored.mem_schemaNames_iff`).
-/

namespace ClusterCatalog

open Plan Repository

/-! ### Values laid over stored ones -/

namespace Item

variable {α : Type} [Codec α] {r r' : Repository} {path : Path}

/-- At most one value is loaded from an item. -/
theorem Loads.unique {a b : Option α} (ha : Loads r path a) (hb : Loads r path b) : a = b := by
  -- where a value is loaded, the item has a node and shows a text
  have hnone : ∀ {x : α}, Loads r path (some x) → ¬ Loads r path (none : Option α) := by
    rintro x ⟨text, hshows, -⟩ (hnode | hvalue)
    · have hsome := hshows.node
      rw [hnode] at hsome
      cases hsome
    · cases hshows.value.symm.trans hvalue
  cases a with
  | none =>
    cases b with
    | none => rfl
    | some b => exact absurd ha (hnone hb)
  | some a =>
    cases b with
    | none => exact absurd hb (hnone ha)
    | some b =>
      obtain ⟨text, hshows, hread⟩ := ha
      obtain ⟨text', hshows', hread'⟩ := hb
      obtain rfl : text = text' := by
        have htext := hshows.value.symm.trans hshows'.value
        exact Option.some.inj (Except.ok.inj htext)
      exact hread.symm.trans hread'

/-- **What is loaded where a value may have been written**: that value, or else what is stored. -/
def LoadsOver (r : Repository) (path : Path) : Option α → Option α → Prop
  | some written, a => a = some written
  | none, a => Loads r path a

/-- What is loaded from an item after a value of it was written, or none. -/
theorem Turned.loads_iff {write : α → String} (hwrite : ∀ a, Codec.read? (write a) = some a)
    {written : Option α} (h : Turned r r' path (written.map fun a => some (write a))) {a : Option α} :
    Loads r' path a ↔ LoadsOver r path written a := by
  cases written with
  | none => exact ⟨fun ha => ha.congr h.symm, fun ha => ha.congr h⟩
  | some b =>
    have hb : Loads r' path (some b) := ⟨write b, h, hwrite b⟩
    exact ⟨fun ha => ha.unique hb, fun ha => ha ▸ hb⟩

/-- What an item was turned into is read from its own nodes. -/
theorem Turned.congr {r'' : Repository} {change : Option (Option String)}
    (h : Turned r r' path change) (hsame : SameAt path r' r'') : Turned r r'' path change := by
  cases change with
  | none => exact SameAt.trans h hsame
  | some text => exact ShowsAt.congr h hsame

/-- The nodes of an item of which a first revision is active. -/
def firstRevision (path : Path) (text : String) : List (Path × String) :=
  [(path, ""), (Path.activeVersion path, "0"), (Path.version path 0, text)]

/-- **A map is what is loaded with values laid over what is stored**: the written values stand under
their names, and under all other names there is what is loaded from the item. -/
structure LaidOver (r : Repository) (item : String → Path) (written m : SortedMap α) : Prop where
  names : ∀ n, m.contains n = true → Path.IsName n
  entries : ∀ n, Path.IsName n → LoadsOver r (item n) (written.get? n) (m.get? n)

end Item

namespace Stored

variable {α : Type} [Codec α] {r r' : Repository} {parent : Path} {item : String → Path}
  {written m : SortedMap α}

/-- What is loaded of a listing where each name contributes what was written or what is stored. -/
theorem itemsIn_eq_ok_iff_laidOver (hitem : ∀ name, Path.below parent ++ name = item name)
    (hloads : ∀ n, Path.IsName n → ∀ a, Item.Loads r' (item n) a
      ↔ Item.LoadsOver r (item n) (written.get? n) a) :
    itemsIn r' parent item = .ok m ↔ Item.LaidOver r item written m := by
  rw [itemsIn_eq_ok_iff hitem]
  constructor
  · rintro ⟨hnames, hentries⟩
    exact ⟨hnames, fun n hn => (hloads n hn _).1 (hentries n hn)⟩
  · rintro ⟨hnames, hentries⟩
    exact ⟨hnames, fun n hn => (hloads n hn _).2 (hentries n hn)⟩

/-- If the whole listing can be loaded, the written values are laid over it. -/
theorem laidOver_overlay (hitem : ∀ name, Path.below parent ++ name = item name)
    (h : itemsIn r parent item = .ok m)
    (hwritten : ∀ n, written.contains n = true → Path.IsName n) :
    Item.LaidOver r item written (m.overlay written) := by
  obtain ⟨hnames, hentries⟩ := (itemsIn_eq_ok_iff hitem).1 h
  refine ⟨fun n hn => ?_, fun n hn => ?_⟩
  · rw [SortedMap.contains_overlay, Bool.or_eq_true] at hn
    exact hn.elim (hwritten n) (hnames n)
  · rw [SortedMap.get?_overlay]
    cases written.get? n with
    | none => exact hentries n hn
    | some a => rfl

/-- Listings of items that are the same are loaded alike, with the same errors. -/
theorem itemsIn_congr (hitem : ∀ name, Path.below parent ++ name = item name)
    (h : ∀ n, Path.IsName n → SameAt (item n) r r') :
    (itemsIn r' parent item : Except Failure (SortedMap α)) = itemsIn r parent item := by
  -- which names are listed is decided by the nodes of the items
  have hchildren : r'.children parent = r.children parent := by
    refine children_ext _ _ fun n => ?_
    rw [mem_children_iff, mem_children_iff, hitem]
    exact and_congr_right fun hn => by rw [h n hn _ (.refl _)]
  -- and so is what each of them shows
  have hvalues : ∀ l : List String, (∀ n ∈ l, Path.IsName n) →
      (l.mapM fun n => (entryOf n (Item.value r' (item n)) : Except Failure (List (String × α))))
        = l.mapM fun n => entryOf n (Item.value r (item n)) := by
    intro l hl
    induction l with
    | nil => rfl
    | cons n l ih =>
      rw [List.forall_mem_cons] at hl
      rw [List.mapM_cons, List.mapM_cons, ih hl.2, Item.value_congr (h n hl.1)]
  unfold itemsIn
  rw [hchildren, hvalues _ fun n hn => ((mem_children_iff _ _).1 hn).1]

/-! ### Tables and views -/

variable {db s : String}

/-- **The tables of a schema** in which tables were written: those, over the ones that were stored. -/
theorem run_loadTables_iff {written tables : SortedMap Table}
    (h : ∀ n, Path.IsName n → Item.Turned r r' (Path.table db s n)
      ((written.get? n).map fun t => some (Codec.write t))) :
    (loadTables db s).run answer r' = (.ok tables, r')
      ↔ Item.LaidOver r (Path.table db s) written tables := by
  rw [loadTables, (reads_loadItems r' _ _).run, Prod.mk.injEq, and_iff_left rfl]
  exact itemsIn_eq_ok_iff_laidOver (Catalogue.below_node db s .table) fun n hn a =>
    (h n hn).loads_iff Codec.read?_write_table

/-- If the tables could be loaded before, the written ones are loaded over them. -/
theorem run_loadTables_overlay {written before : SortedMap Table}
    (h : ∀ n, Path.IsName n → Item.Turned r r' (Path.table db s n)
      ((written.get? n).map fun t => some (Codec.write t)))
    (hwritten : ∀ n, written.contains n = true → Path.IsName n)
    (hbefore : (loadTables db s).run answer r = (.ok before, r)) :
    (loadTables db s).run answer r' = (.ok (before.overlay written), r') := by
  rw [loadTables, (reads_loadItems r _ _).run, Prod.mk.injEq, and_iff_left rfl] at hbefore
  exact (run_loadTables_iff h).2 (laidOver_overlay (Catalogue.below_node db s .table) hbefore hwritten)

/-- **The views of a schema** in which views were written: those, over the ones that were stored. -/
theorem run_loadViews_iff {written views : SortedMap View}
    (h : ∀ n, Path.IsName n → Item.Turned r r' (Path.view db s n)
      ((written.get? n).map fun v => some (Codec.write v))) :
    (loadViews db s).run answer r' = (.ok views, r')
      ↔ Item.LaidOver r (Path.view db s) written views := by
  rw [loadViews, (reads_loadItems r' _ _).run, Prod.mk.injEq, and_iff_left rfl]
  exact itemsIn_eq_ok_iff_laidOver (Catalogue.below_node db s .view) fun n hn a =>
    (h n hn).loads_iff Codec.read?_write_view

/-- If the views could be loaded before, the written ones are loaded over them. -/
theorem run_loadViews_overlay {written before : SortedMap View}
    (h : ∀ n, Path.IsName n → Item.Turned r r' (Path.view db s n)
      ((written.get? n).map fun v => some (Codec.write v)))
    (hwritten : ∀ n, written.contains n = true → Path.IsName n)
    (hbefore : (loadViews db s).run answer r = (.ok before, r)) :
    (loadViews db s).run answer r' = (.ok (before.overlay written), r') := by
  rw [loadViews, (reads_loadItems r _ _).run, Prod.mk.injEq, and_iff_left rfl] at hbefore
  exact (run_loadViews_iff h).2 (laidOver_overlay (Catalogue.below_node db s .view) hbefore hwritten)

/-! ### Changes of schemas -/

variable {x : Schema} {m : Schemas} {kind : DefinitionKind} {text : Option String}

/-- What is made of a place by writing a schema. -/
theorem lookup_schemaChanges (hx : x.Keyed) (hs : x.name = s) (n : String) :
    ([.table, .view].flatMap (changesOf db x)).reverse.lookup ⟨db, s, kind, n⟩
      = (x.text kind n).map some := by
  refine lookup_reverse_eq fun text => ?_
  simp only [List.mem_flatMap, mem_changesOf_iff hx]
  constructor
  · rintro ⟨kind', -, -, -, rfl, htext⟩
    exact htext
  · intro htext
    exact ⟨kind, by cases kind <;> decide, trivial, hs.symm, rfl, htext⟩

/-- What is made of a place by writing the tables of schemas. -/
theorem lookup_tableChanges (hm : m.Keyed) (s n : String) :
    (m.values.flatMap fun x => changesOf db x .table).reverse.lookup ⟨db, s, kind, n⟩
      = if kind = .table then ((m.schema s).text .table n).map some else none := by
  refine lookup_reverse_eq fun text => ?_
  have hkeyed : ∀ {key : String} {x : Schema}, m.get? key = some x → x.name = key ∧ x.Keyed :=
    fun h => (hm (_, _) (m.get?_eq_some_iff.1 h)).2
  rw [List.mem_flatMap]
  constructor
  · rintro ⟨x, hx, hmem⟩
    obtain ⟨key, hkey⟩ := SortedMap.mem_values_iff.1 hx
    obtain ⟨hname, hxkeyed⟩ := hkeyed hkey
    obtain ⟨-, hs, hkind, htext⟩ := (mem_changesOf_iff hxkeyed).1 hmem
    obtain rfl : s = key := hs.trans hname
    rw [if_pos hkind, Schemas.schema, hkey]
    exact htext
  · intro htext
    split at htext
    · rename_i hkind
      cases hget : m.get? s with
      | none =>
        -- a schema that is not there has no tables
        rw [Schemas.schema, hget] at htext
        cases htext
      | some x =>
        obtain ⟨rfl, hxkeyed⟩ := hkeyed hget
        rw [Schemas.schema, hget] at htext
        exact ⟨x, SortedMap.mem_values_iff.2 ⟨_, hget⟩,
          (mem_changesOf_iff hxkeyed).2 ⟨rfl, rfl, hkind, htext⟩⟩
    · cases htext

end Stored

/-! ### Nodes that are created -/

/-- **A call spares a node**: it does not remove it. -/
def StoreRequest.Spares (node : Path) : StoreRequest → Prop
  | delete p => ¬ p.toList <+: node.toList
  | _ => True

/-- What is at or below a path is not above the path. -/
theorem StoreRequest.Concerns.spares {a node : Path} (hnode : ¬ a.IsAbove node) :
    ∀ {call : StoreRequest}, call.Concerns a → call.Spares node
  | .delete _, hcall => fun hfront => hnode (List.IsPrefix.trans hcall hfront)
  | .persist .., _ | .query _, _ | .children _, _ | .warn _, _ => trivial

namespace Access

variable {α : Type} {node : Path}

/-- A node stays where it is spared. -/
theorem keeps_node {p : Access α} (h : p.Uses (StoreRequest.Spares node)) (r : Repository) :
    p.Keeps unsure (fun _ r' => (r.query node).isSome → (r'.query node).isSome) r := by
  refine ((uses_iff.1 h).of_any
    (R := fun r r' => (r.query node).isSome → (r'.query node).isSome) (fun _ h => h)
    (fun _ _ _ h h' hr => h' (h hr)) (fun call r hcall => ⟨trivial, ?_⟩) r).mono fun _ _ h => h.1
  rintro reply r' ⟨refusal, -, hanswer⟩ hr
  obtain ⟨-, rfl⟩ := Prod.ext_iff.1 hanswer
  cases refusal with
  | some e => exact hr
  | none =>
    -- only a removal could take the node away, and a call that spares it removes something else
    cases call with
    | persist x v => exact isSome_query_persist _ _ _ hr
    | delete x =>
      show ((r.delete x).query node).isSome
      rw [query_delete_of_not_front _ _ hcall]
      exact hr
    | query x => exact hr
    | children x => exact hr
    | warn w => exact hr

/-- **An operation creates a node**: if it ends well, the node is there, whatever was refused. -/
def Creates (node : Path) (p : Access α) : Prop :=
  ∀ r, p.Keeps unsure (fun result r' => ∀ a, result = .ok a → (r'.query node).isSome) r

variable {β : Type} {p : Access α}

/-- A write creates the nodes above it. -/
theorem creates_persist (hnode : node ≠ "") {x : Path} (habove : node.IsAbove x) (v : String) :
    Creates node (persist x v) := by
  intro r
  refine keeps_persist.2 ⟨trivial, fun _ _ => ?_, fun _ _ _ h => by cases h⟩
  exact isSome_query_persist_of_covers _ _ _ hnode habove.covers

/-- What is created first stays where it is spared. -/
theorem Creates.seq_left {q : α → Access β} (hp : Creates node p)
    (hq : ∀ a, (q a).Uses (StoreRequest.Spares node)) : Creates node (p >>= q) := fun r =>
  (hp r).bind (fun a r₁ h₁ => (keeps_node (hq a) r₁).mono fun _ _ h _ _ => h (h₁ a rfl))
    fun _ _ _ _ h => by cases h

/-- What the second of two operations creates is there after both, if the first one goes well. -/
theorem Creates.seq_right {q : α → Access β} (hq : ∀ a, Creates node (q a)) :
    Creates node (p >>= q) := by
  intro r
  rw [keeps_bind]
  induction p generalizing r with
  | done a => exact hq a r
  | stop f => exact fun _ h => by cases h
  | ask call k ih => exact ⟨trivial, fun reply r' _ => ih reply r'⟩

/-- **A loop creates a node** if one of its rounds does, and all others spare it. -/
theorem Creates.forM {f : β → Access Unit} {l : List β}
    (hspares : ∀ b ∈ l, (f b).Uses (StoreRequest.Spares node))
    (hcreates : ∃ b ∈ l, Creates node (f b)) : Creates node (l.forM f) := by
  induction l with
  | nil =>
    obtain ⟨b, hb, -⟩ := hcreates
    exact absurd hb List.not_mem_nil
  | cons b l ih =>
    rw [List.forall_mem_cons] at hspares
    show Creates node (f b >>= fun _ => l.forM f)
    obtain ⟨c, hc, hcreates⟩ := hcreates
    -- either this round creates the node and the other rounds spare it, or a later one creates it
    rcases List.mem_cons.1 hc with rfl | hc
    · exact hcreates.seq_left fun _ => Uses.forM hspares.2
    · exact Creates.seq_right fun _ => ih hspares.2 ⟨c, hc, hcreates⟩

end Access

namespace Item

variable {node path : Path}

/-- **Staging a revision** creates the nodes above the item. -/
theorem creates_stage (hnode : node ≠ "") (habove : node.IsAbove path) (v : String) :
    Access.Creates node (stage path v) := by
  have hspares : ∀ call : StoreRequest, call.Concerns path → call.Spares node := fun _ hcall =>
    hcall.spares fun h => habove.not_covers h.covers
  have hversion : ∀ n, node.IsAbove (Path.version path n) := fun n =>
    habove.covers.isAbove_of_isAbove (Path.isAbove_version path n)
  unfold stage
  refine Access.Creates.seq_right fun found => Access.Creates.seq_right fun next => ?_
  refine (Access.creates_persist hnode (hversion next) v).seq_left fun _ => ?_
  refine ((looks_active path).mono fun _ hcall => hspares _ hcall.concerns).seq fun found => ?_
  -- the pointer may be written as well; this spares the node, which is above it
  cases found with
  | some current => trivial
  | none =>
    refine Uses.seq ?_ fun _ => trivial
    exact (Access.uses_persist (Path.isAbove_activeVersion path).covers).mono hspares

/-- **Publishing a text** creates the nodes above the item. -/
theorem creates_publish (hnode : node ≠ "") (habove : node.IsAbove path) (v : String) :
    Access.Creates node (publish path v) := by
  have hspares : ∀ call : StoreRequest, call.Concerns path → call.Spares node := fun _ hcall =>
    hcall.spares fun h => habove.not_covers h.covers
  intro r
  unfold publish
  -- the switch that is left to commit is one of the item
  have hpath : (stage path v).Keeps (.any (StoreRequest.Concerns path))
      (fun result _ => ∀ switch, result = .ok switch → switch.path = path) () := keeps_stage_path path v
  refine ((creates_stage hnode habove v r).and_any hpath).bind (fun switch r₁ h₁ => ?_)
    fun _ _ _ _ h => by cases h
  obtain ⟨hcreated, hswitch⟩ := h₁
  rw [commit_singleton]
  have huses : (commitOne switch >>= fun _ => pure switch).Uses (StoreRequest.Concerns path) :=
    (hswitch switch rfl ▸ uses_commitOne switch).seq fun _ => trivial
  exact (Access.keeps_node (huses.mono hspares) r₁).mono fun _ _ h _ _ => h (hcreated switch rfl)

end Item

namespace Stored

variable {db s : String} {r : Repository}

/-- **A schema is listed** if it has a node. -/
theorem mem_schemaNames_iff :
    s ∈ r.children (Path.schemas db) ↔ Path.IsName s ∧ (r.query (Path.schema db s)).isSome := by
  have hbelow : Path.below (Path.schemas db) ++ s = Path.schema db s :=
    Path.below_child_append (by decide) s
  rw [mem_children_iff, hbelow]

/-- What concerns a schema spares the nodes of schemas. -/
theorem spares_schema {s' : String} (hs : Path.IsName s) (hs' : Path.IsName s') {call : StoreRequest}
    (h : call.Concerns (Path.schema db s')) : call.Spares (Path.schema db s) := by
  refine h.spares fun habove => ?_
  by_cases heq : s' = s
  · exact habove.ne (heq ▸ rfl)
  · exact (Place.apart_schema_of_ne hs' hs heq).1 habove.covers

/-- Creating a schema creates its node. -/
theorem creates_addSchema (s : String) : Access.Creates (Path.schema db s) (addSchema db s) :=
  Access.creates_persist (Path.child_ne_empty _ _) (Path.isAbove_child _ _) ""

/-- Writing a table or a view is about its schema. -/
theorem uses_definition (p : Place) (v : String) :
    (Item.publish p.path v >>= fun _ => (pure () : Access Unit)).Uses
      (StoreRequest.Concerns (Path.schema p.db p.schema)) :=
  (Access.uses_mono (Item.uses_publish _ _) p.schema_covers_path).seq fun _ => trivial

/-- Writing a table or a view creates the node of its schema. -/
theorem creates_definition (p : Place) (v : String) :
    Access.Creates (Path.schema p.db p.schema) (Item.publish p.path v >>= fun _ => pure ()) :=
  (Item.creates_publish (Path.child_ne_empty _ _) p.schema_isAbove_path v).seq_left fun _ => trivial

end Stored

end ClusterCatalog
