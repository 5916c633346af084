import ClusterCatalog.Proofs.Store.Schemas

/-!
# What is loaded

Loading lists the nodes of a kind and reads the active text of each. `Item.Loads` is what an item
contributes: the value of the text that it shows, or nothing if it has no active revision. A map of
values is loaded exactly if each name contributes what the map has for it
(`Stored.itemsIn_eq_ok_iff`), and likewise a schema (`Stored.run_loadSchema_iff`). Nothing is
supposed of the repository here: if a listed item cannot be read, no map is loaded.
-/

namespace ClusterCatalog

open Plan Repository

/-! ### What is loaded -/

namespace Item

variable {α : Type} [Codec α] {r r' : Repository} {path : Path}

/-- **A value is loaded from an item** if the item shows a text of it. None is loaded if the item is
not there, or has no active revision. -/
def Loads (r : Repository) (path : Path) : Option α → Prop
  | some a => ∃ text, Shows r path text ∧ Codec.read? text = some a
  | none => r.query path = none ∨ value r path = .ok none

theorem Loads.congr {a : Option α} (h : Loads r path a) (hsame : SameAt path r r') :
    Loads r' path a := by
  cases a with
  | some a =>
    obtain ⟨text, hshows, hread⟩ := h
    exact ⟨text, hshows.congr hsame, hread⟩
  | none => exact h.imp (hsame path (.refl _)).trans (value_congr hsame).trans

/-- An item that shows the text of a value contributes the value. -/
theorem loads_of_showsAt {write : α → String} (hwrite : ∀ a, Codec.read? (write a) = some a)
    {a : Option α} (h : ShowsAt r path (a.map write)) : Loads r path a := by
  cases a with
  | some a => exact ⟨write a, h, hwrite a⟩
  | none => exact .inl h

end Item

namespace Stored

variable {α : Type} [Codec α] {r : Repository} {parent : Path} {item : String → Path}

/-- What is loaded of a listed item: the entry of the value that its text stands for, or none if it
shows no text. -/
def entryOf (name : String) : Except Failure (Option String) → Except Failure (List (String × α))
  | .error f => .error f
  | .ok none => .ok []
  | .ok (some text) =>
    match Codec.read? text with
    | some a => .ok [(name, a)]
    | none => .error (.error .malformedText)

/-- **The entries below a node as they are loaded.** -/
def itemsIn (r : Repository) (parent : Path) (item : String → Path) :
    Except Failure (SortedMap α) := do
  let found ← (r.children parent).mapM fun name => entryOf name (Item.value r (item name))
  return SortedMap.ofList found.flatten

/-- What is loaded for one name of a listing is the entry of what the item shows. -/
theorem reads_entry (name : String) : Access.Reads r (do
      match ← Item.activeValue (item name) with
      | some text => return [(name, ← (Access.parse text : Access α))]
      | none => return []) (entryOf name (Item.value r (item name))) := by
  have hbind : entryOf (α := α) name (Item.value r (item name))
      = Item.value r (item name) >>= fun shown => entryOf name (.ok shown) := by
    cases Item.value r (item name) <;> rfl
  rw [hbind]
  refine (Item.reads_activeValue _).bind fun shown => ?_
  -- an item that shows nothing has no entry; a text that cannot be read is an error
  cases shown with
  | none => exact Access.reads_pure _
  | some text =>
    have hentry : entryOf (α := α) name (.ok (some text)) = match Codec.read? text with
      | some a => .ok [(name, a)]
      | none => .error (.error .malformedText) := rfl
    rw [hentry]
    show Access.Reads r (Access.parse text >>= _) _
    rw [Access.parse]
    cases (Codec.read? text : Option α) with
    | some a => exact Access.reads_pure [(name, a)]
    | none => exact Access.reads_ofResult (.error (.error .malformedText))

/-- **Loading entries** reads what is stored. -/
theorem reads_loadItems (r : Repository) (parent : Path) (item : String → Path) :
    Access.Reads r (loadItems parent item : Access (SortedMap α)) (itemsIn r parent item) := by
  show Access.Reads r _ ((.ok (r.children parent) : Except Failure (List String)) >>= fun names =>
    (names.mapM fun name => entryOf name (Item.value r (item name))) >>=
      fun found => pure (SortedMap.ofList found.flatten))
  refine (Access.reads_children _).bind fun names => ?_
  exact (Access.Reads.mapM reads_entry names).bind fun found => Access.reads_pure _

/-- The entry of a name that may have a value. -/
def optionalEntry (name : String) (a : Option α) : List (String × α) :=
  (a.map fun a => (name, a)).toList

/-- **What is loaded of a listed item** is what the item has. -/
theorem entryOf_eq_ok_iff {name : String} (hnode : (r.query (item name)).isSome) {a : Option α} :
    entryOf name (Item.value r (item name)) = .ok (optionalEntry name a)
      ↔ Item.Loads r (item name) a := by
  have hquery : r.query (item name) ≠ none := Option.isSome_iff_ne_none.1 hnode
  have hshows : ∀ text, Item.Shows r (item name) text
      ↔ Item.value r (item name) = .ok (some text) := fun text => ⟨fun h => h.value, fun h => ⟨hnode, h⟩⟩
  -- the item is listed, so it has a node, and only its value is left to look at
  cases a with
  | none =>
    simp only [Item.Loads, hquery, false_or]
    rcases Item.value r (item name) with f | _ | text
    · simp [entryOf]
    · simp [entryOf, optionalEntry]
    · cases hread : (Codec.read? text : Option α) <;> simp [entryOf, optionalEntry, hread]
  | some a =>
    simp only [Item.Loads, hshows]
    rcases Item.value r (item name) with f | _ | text
    · simp [entryOf]
    · simp [entryOf, optionalEntry]
    · cases hread : (Codec.read? text : Option α) <;> simp [entryOf, optionalEntry, hread]

/-- Whatever is loaded of a listed item is an entry of its name. -/
theorem exists_of_entryOf_eq_ok {name : String} {shown : Except Failure (Option String)}
    {l : List (String × α)} (h : entryOf name shown = .ok l) : ∃ a, l = optionalEntry name a := by
  rcases shown with f | _ | text
  · cases h
  · cases h
    exact ⟨none, rfl⟩
  · cases hread : (Codec.read? text : Option α) with
    | none => simp [entryOf, hread] at h
    | some a =>
      refine ⟨some a, ?_⟩
      simp only [entryOf, hread, Except.ok.injEq] at h
      exact h.symm

omit [Codec α] in
/-- A listing is loaded if each of its names is. -/
theorem mapM_eq_ok_iff {β : Type} {f : String → Except Failure β} {names : List String}
    {found : List β} :
    names.mapM f = .ok found ↔ List.Forall₂ (fun name b => f name = .ok b) names found := by
  -- by induction on the names; the first one that cannot be loaded ends the listing
  induction names generalizing found with
  | nil =>
    rw [List.forall₂_nil_left_iff]
    exact ⟨fun h => (Except.ok.inj h).symm, fun h => h ▸ rfl⟩
  | cons name names ih =>
    rw [List.mapM_cons, List.forall₂_cons_left_iff]
    cases hname : f name with
    | error e => exact iff_of_false (fun h => by cases h) fun ⟨b, _, hb, _⟩ => by cases hb
    | ok b =>
      cases hrest : names.mapM f with
      | error e =>
        refine iff_of_false (fun h => by cases h) fun ⟨_, rest, _, h, _⟩ => ?_
        cases hrest.symm.trans (ih.2 h)
      | ok rest =>
        constructor
        · intro h
          exact ⟨b, rest, rfl, ih.1 hrest, (Except.ok.inj h).symm⟩
        · rintro ⟨b', rest', hb, h, rfl⟩
          obtain rfl := Except.ok.inj hb
          obtain rfl := Except.ok.inj (hrest.symm.trans (ih.2 h))
          rfl

omit [Codec α] in
theorem exists_of_mapM_eq_ok {β : Type} {f : String → Except Failure β} {names : List String}
    {found : List β} (h : List.Forall₂ (fun name b => f name = .ok b) names found) :
    ∀ name ∈ names, ∃ b, f name = .ok b := by
  induction h with
  | nil => exact fun name hname => absurd hname List.not_mem_nil
  | cons hfirst _ ih => exact List.forall_mem_cons.2 ⟨⟨_, hfirst⟩, ih⟩

/-- The entries that are loaded are those of the names of the listing. -/
theorem mem_flatten_iff {names : List String} {shown : String → Except Failure (Option String)}
    {found : List (List (String × α))}
    (h : List.Forall₂ (fun name l => entryOf name (shown name) = .ok l) names found)
    (name : String) (a : α) :
    (name, a) ∈ found.flatten
      ↔ name ∈ names ∧ entryOf name (shown name) = .ok (optionalEntry name (some a)) := by
  induction h with
  | nil => simp
  | @cons first l names found hfirst _ ih =>
    rw [List.flatten_cons, List.mem_append, ih, List.mem_cons, or_and_right]
    refine or_congr_left ?_
    obtain ⟨b, rfl⟩ := exists_of_entryOf_eq_ok hfirst
    -- an entry of the first name has that name, so only one of the two sides is left
    constructor
    · intro hmem
      obtain ⟨a', rfl, heq⟩ : ∃ a', b = some a' ∧ (name, a) = (first, a') := by
        cases b with
        | none => exact absurd hmem List.not_mem_nil
        | some a' => exact ⟨a', rfl, List.mem_singleton.1 hmem⟩
      obtain ⟨rfl, rfl⟩ := Prod.mk.inj heq
      exact ⟨rfl, hfirst⟩
    · rintro ⟨rfl, hname⟩
      obtain hentry := Except.ok.inj (hfirst.symm.trans hname)
      rw [hentry]
      exact List.mem_singleton_self _

omit [Codec α] in
theorem optionalEntry_inj {name : String} {a b : Option α}
    (h : optionalEntry name a = optionalEntry name b) : a = b := by
  cases a <;> cases b <;> simp_all [optionalEntry]

/-- **The map of a listing** has for each listed name what is loaded of it. -/
theorem entryOf_eq_get? {names : List String} {shown : String → Except Failure (Option String)}
    {found : List (List (String × α))}
    (h : List.Forall₂ (fun name l => entryOf name (shown name) = .ok l) names found) {name : String}
    (hname : name ∈ names) : entryOf name (shown name)
      = .ok (optionalEntry name ((SortedMap.ofList found.flatten).get? name)) := by
  cases hget : (SortedMap.ofList found.flatten).get? name with
  | some a => exact ((mem_flatten_iff h name a).1 (SortedMap.mem_of_get?_ofList hget)).2
  | none =>
    obtain ⟨l, hl⟩ := exists_of_mapM_eq_ok h name hname
    obtain ⟨a, rfl⟩ := exists_of_entryOf_eq_ok hl
    cases a with
    | none => exact hl
    | some a =>
      -- an entry that was loaded is in the map
      have hcontains := SortedMap.contains_ofList.2 ⟨a, (mem_flatten_iff h name a).2 ⟨hname, hl⟩⟩
      rw [SortedMap.contains, hget] at hcontains
      cases hcontains

/-- The map of a listing has listed names only. -/
theorem mem_of_contains {names : List String} {shown : String → Except Failure (Option String)}
    {found : List (List (String × α))}
    (h : List.Forall₂ (fun name l => entryOf name (shown name) = .ok l) names found) {name : String}
    (hname : (SortedMap.ofList found.flatten).contains name = true) : name ∈ names := by
  obtain ⟨a, ha⟩ := SortedMap.contains_ofList.1 hname
  exact ((mem_flatten_iff h name a).1 ha).1

/-- What is loaded is the map of the entries of the listed names. -/
theorem exists_of_itemsIn_eq_ok {m : SortedMap α} (h : itemsIn r parent item = .ok m) :
    ∃ found, List.Forall₂ (fun name l => entryOf name (Item.value r (item name)) = .ok l)
        (r.children parent) found ∧ SortedMap.ofList found.flatten = m := by
  unfold itemsIn at h
  cases hfound : (r.children parent).mapM fun name =>
      entryOf (α := α) name (Item.value r (item name)) with
  | error f => rw [hfound] at h; cases h
  | ok found =>
    rw [hfound] at h
    exact ⟨found, mapM_eq_ok_iff.1 hfound, Except.ok.inj h⟩

/-- A name is listed if its item has a node. -/
theorem mem_children_iff_query (hitem : ∀ name, Path.below parent ++ name = item name) {name : String} :
    name ∈ r.children parent ↔ Path.IsName name ∧ (r.query (item name)).isSome := by
  rw [mem_children_iff, hitem]

/-- What a map has that is loaded is listed. -/
theorem mem_children_of_loads (hitem : ∀ name, Path.below parent ++ name = item name)
    {m : SortedMap α} {name : String} (hname : Path.IsName name)
    (hloads : Item.Loads r (item name) (m.get? name)) (hsome : m.get? name ≠ none) :
    name ∈ r.children parent := by
  obtain ⟨a, ha⟩ := Option.ne_none_iff_exists'.1 hsome
  rw [ha] at hloads
  obtain ⟨text, hshows, -⟩ := hloads
  exact (mem_children_iff_query hitem).2 ⟨hname, hshows.node⟩

/-- Each name has what was loaded for it. -/
theorem loads_of_itemsIn_eq_ok (hitem : ∀ name, Path.below parent ++ name = item name)
    {m : SortedMap α} (h : itemsIn r parent item = .ok m) {name : String} (hname : Path.IsName name) :
    Item.Loads r (item name) (m.get? name) := by
  obtain ⟨found, hfound, rfl⟩ := exists_of_itemsIn_eq_ok h
  -- a listed name has its entry in the map
  by_cases hin : name ∈ r.children parent
  · have hnode := ((mem_children_iff_query hitem).1 hin).2
    exact (entryOf_eq_ok_iff hnode).1 (entryOf_eq_get? hfound hin)
  · -- a name that is not listed has no node
    have hnone : (SortedMap.ofList found.flatten).get? name = none := by
      by_contra hsome
      exact hin (mem_of_contains hfound (Option.isSome_iff_ne_none.2 hsome))
    rw [hnone]
    left
    by_contra hsome
    exact hin ((mem_children_iff_query hitem).2 ⟨hname, Option.isSome_iff_ne_none.2 hsome⟩)

/-- **Entries are loaded** exactly where each name has what the map has for it. -/
theorem itemsIn_eq_ok_iff (hitem : ∀ name, Path.below parent ++ name = item name)
    {m : SortedMap α} :
    itemsIn r parent item = .ok m
      ↔ (∀ name, m.contains name = true → Path.IsName name)
        ∧ ∀ name, Path.IsName name → Item.Loads r (item name) (m.get? name) := by
  have hlisted : ∀ {name}, name ∈ r.children parent
      ↔ Path.IsName name ∧ (r.query (item name)).isSome := mem_children_iff_query hitem
  refine ⟨fun h => ⟨fun name hname => ?_, fun name => loads_of_itemsIn_eq_ok hitem h⟩, ?_⟩
  · obtain ⟨found, hfound, rfl⟩ := exists_of_itemsIn_eq_ok h
    exact (hlisted.1 (mem_of_contains hfound hname)).1
  · rintro ⟨hnames, hloads⟩
    have hentry : ∀ name ∈ r.children parent, entryOf name (Item.value r (item name))
        = .ok (optionalEntry name (m.get? name)) := fun name hin =>
      (entryOf_eq_ok_iff (hlisted.1 hin).2).2 (hloads name (hlisted.1 hin).1)
    have hfound : List.Forall₂ (fun name l => entryOf name (Item.value r (item name)) = .ok l)
        (r.children parent)
        ((r.children parent).map fun name => optionalEntry name (m.get? name)) :=
      List.forall₂_map_right_iff.2 (List.forall₂_same.2 hentry)
    rw [itemsIn, mapM_eq_ok_iff.2 hfound]
    -- the map that is loaded is the given one, name by name
    refine congrArg Except.ok (SortedMap.ext fun name => ?_)
    by_cases hin : name ∈ r.children parent
    · exact optionalEntry_inj (Except.ok.inj ((entryOf_eq_get? hfound hin).symm.trans (hentry name hin)))
    · -- neither map has a name that is not listed
      have hnone : m.get? name = none := by
        by_contra hsome
        have hname := hnames name (Option.isSome_iff_ne_none.2 hsome)
        exact hin (mem_children_of_loads hitem hname (hloads name hname) hsome)
      rw [hnone]
      by_contra hsome
      exact hin (mem_of_contains hfound (Option.isSome_iff_ne_none.2 hsome))

/-- **A schema is loaded** exactly if each name contributes the table and the view that the schema has
under it. -/
theorem run_loadSchema_iff {db s : String} {x : Schema} :
    (loadSchema db s).run answer r = (.ok x, r)
      ↔ x.name = s
        ∧ ((∀ n, x.tables.contains n = true → Path.IsName n)
          ∧ ∀ n, Path.IsName n → Item.Loads r (Path.table db s n) (x.tables.get? n))
        ∧ (∀ n, x.views.contains n = true → Path.IsName n)
          ∧ ∀ n, Path.IsName n → Item.Loads r (Path.view db s n) (x.views.get? n) := by
  -- tables first, then views: a failure of either is a failure of the whole
  have hloaded : Access.Reads r (loadSchema db s) (itemsIn r (Path.tables db s) (Path.table db s) >>=
      fun tables => itemsIn r (Path.views db s) (Path.view db s) >>=
        fun views => pure { name := s, tables, views }) :=
    (reads_loadItems r _ _).bind fun tables =>
      (reads_loadItems r _ _).bind fun views => Access.reads_pure _
  have htable : ∀ n, Path.below (Path.tables db s) ++ n = Path.table db s n :=
    Catalogue.below_node db s .table
  have hview : ∀ n, Path.below (Path.views db s) ++ n = Path.view db s n :=
    Catalogue.below_node db s .view
  rw [hloaded.run, ← itemsIn_eq_ok_iff htable, ← itemsIn_eq_ok_iff hview]
  cases itemsIn (α := Table) r (Path.tables db s) (Path.table db s) with
  | error f => exact iff_of_false (fun h => by cases h) fun h => by cases h.2.1
  | ok tables =>
    cases itemsIn (α := View) r (Path.views db s) (Path.view db s) with
    | error f => exact iff_of_false (fun h => by cases h) fun h => by cases h.2.2
    | ok views =>
      constructor
      · intro h
        obtain rfl := Except.ok.inj (Prod.mk.inj h).1
        exact ⟨rfl, rfl, rfl⟩
      · obtain ⟨name, tables', views'⟩ := x
        rintro ⟨rfl, htables, hviews⟩
        obtain rfl := Except.ok.inj htables
        obtain rfl := Except.ok.inj hviews
        rfl

end Stored

end ClusterCatalog
