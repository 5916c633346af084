import ClusterCatalog.Proofs.Store.Definitions

/-!
# When new properties of units are seen

Writing units leaves the switches uncommitted, and a reader who loads the units in the meantime must see the
old properties. There is one exception: a unit that nothing is stored of has no old properties, so it is seen
as soon as it is written. Afterwards each switch that is committed makes one more unit show its new properties,
in the order of the names, and the others show what they have shown.

* `Item.Ready`, `Item.Vacant` — the two kinds of items that are written to. One of the first kind shows a text
  and has a number left, and staging a revision does not change what it shows. One of the second kind shows the
  first revision at once (`Item.Revealed`).
* `Stored.UnitsOver` — what is stored of some units are the given properties, and of all others it is what it
  was. Then what is loaded are these properties laid over those that were loaded before
  (`Stored.unitsIn_of_unitsOver`).

`Stored.loadUnits_between_commits` puts them together, for every point between two switches of a batch.
-/

namespace ClusterCatalog

open Plan Repository

namespace SortedMap

variable {α : Type} {m : SortedMap α} {k : Nat} {key : String}

/-- The first entries of a map. -/
def take (m : SortedMap α) (k : Nat) : SortedMap α :=
  ⟨m.entries.take k, m.ascending.sublist (List.take_sublist k m.entries)⟩

/-- What is among the first entries is in the map. -/
theorem get?_of_take {a : α} (h : (m.take k).get? key = some a) : m.get? key = some a :=
  (get?_eq_some_iff _).2 (List.mem_of_mem_take ((get?_eq_some_iff (m.take k)).1 h))

/-- So is every key of theirs. -/
theorem contains_of_take (h : (m.take k).contains key = true) : m.contains key = true := by
  obtain ⟨a, ha⟩ := contains_iff.1 h
  exact contains_iff.2 ⟨a, get?_of_take ha⟩

/-- What is not in the map is not among its first entries. -/
theorem get?_take_of_none (h : m.get? key = none) : (m.take k).get? key = none := by
  by_contra hne
  obtain ⟨a, ha⟩ := Option.ne_none_iff_exists'.1 hne
  rw [get?_of_take ha] at h
  cases h

end SortedMap

/-! ### Items that are written to -/

namespace Item

variable {r r' r'' s : Repository} {path : Path} {v : String}

/-- **An item that nothing is stored of**, neither at its node nor below. -/
def Vacant (r : Repository) (path : Path) : Prop := ∀ q, path.Covers q → r.query q = none

/-- **An item that a revision can be added to**: its pointer names a revision that is there, and all names below
the revisions stand for numbers that leave one for the next revision. -/
structure Ready (r : Repository) (path : Path) : Prop where
  pointed : ∃ n, pointer r path = .ok (some n) ∧ Present r path n
  numbered : ∀ name ∈ r.children (Path.versions path), ∃ n, revisionOf? name = some n ∧ n < maxRevision

/-- Whether an item is vacant depends on its own nodes only. -/
theorem Vacant.congr (h : Vacant r path) (hsame : SameAt path r r') : Vacant r' path := fun q hq =>
  (hsame q hq).trans (h q hq)

/-- Whether an item is ready is read off what is below it. -/
theorem Ready.congr (h : Ready r path) (hsame : SameAt path r r') : Ready r' path := by
  have hchild : ∀ name, r'.query (Path.child (Path.versions path) name)
      = r.query (Path.child (Path.versions path) name) := fun name =>
    hsame _ ((Path.isAbove_versions path).covers.trans (Path.isAbove_child _ _).covers)
  obtain ⟨n, hpointer, hpresent⟩ := h.pointed
  refine ⟨⟨n, (pointer_congr hsame).trans hpointer, ?_⟩, fun name hname => h.numbered name ?_⟩
  · rw [Present, Path.version, hchild]
    exact hpresent
  · rw [mem_children_versions_iff, hchild] at hname
    exact mem_children_versions_iff.2 hname

/-- An item without a node is vacant, where with a node there are the nodes above it. -/
theorem vacant_of_query_eq_none (hr : Rooted r) (hpath : path ≠ "") (h : r.query path = none) :
    Vacant r path := by
  rintro q (rfl | habove)
  · exact h
  · by_contra hne
    have hnode := hr path q (Option.isSome_iff_ne_none.2 hne) hpath habove
    rw [h] at hnode
    cases hnode

/-- A ready item shows a text. -/
theorem Ready.exists_value (h : Ready r path) : ∃ text, value r path = .ok (some text) := by
  obtain ⟨n, hpointer, hpresent⟩ := h.pointed
  obtain ⟨text, htext⟩ := Option.isSome_iff_exists.1 hpresent
  refine ⟨text, ?_⟩
  rw [value, hpointer]
  exact congrArg Except.ok htext

/-- An item that shows a text is not vacant. -/
theorem Ready.not_vacant (h : Ready r path) : ¬ Vacant r path := by
  intro hvacant
  obtain ⟨n, -, hpresent⟩ := h.pointed
  rw [Present, hvacant _ (Path.isAbove_version path n).covers] at hpresent
  cases hpresent

/-- A pointer names a number in range. -/
theorem le_of_pointer {n : Nat} (h : pointer r path = .ok (some n)) : n ≤ maxRevision := by
  rw [pointer_eq, number] at h
  split at h
  · cases h
  · cases hnumber : revisionOf? (text r (Path.activeVersion path)) with
    | none => rw [hnumber] at h; cases h
    | some m =>
      rw [hnumber] at h
      cases h
      exact le_of_revisionOf? hnumber

/-- **The revisions of a ready item can be listed**, with all that are there, and leave a number. -/
theorem Ready.exists_numbers (h : Ready r path) :
    ∃ found, numbers r path = .ok found ∧ (∀ n ∈ found, n < maxRevision)
      ∧ ∀ n, n ≤ maxRevision → Present r path n → n ∈ found := by
  refine ⟨_, numbers_eq_ok_iff.2 ⟨fun name hname => ?_, rfl⟩, fun n hn => ?_, fun n hle hpresent => ?_⟩
  · obtain ⟨n, hn, -⟩ := h.numbered name hname
    rw [hn]
    rfl
  · obtain ⟨name, hname, hn⟩ := List.mem_filterMap.1 hn
    obtain ⟨m, hm, hlt⟩ := h.numbered name hname
    obtain rfl : m = n := Option.some.inj (hm.symm.trans hn)
    exact hlt
  · exact List.mem_filterMap.2 ⟨toString n, mem_children_versions_iff.2 ⟨isName_toString n, hpresent⟩,
      revisionOf?_toString hle⟩

/-! ### Staging -/

/-- **Staging** where the revisions can be listed and leave a number: the revision is written under a number
greater than all others, and the pointer is written if there is none. -/
theorem keeps_stage_listed {found : List Nat} (hfound : numbers s path = .ok found)
    (hroom : ∀ n ∈ found, n < maxRevision) {current : Option Nat}
    (hpointer : pointer s path = .ok current) (v : String) :
    (stage path v).Keeps sure (fun result s' => ∃ next, next ≤ maxRevision ∧ (∀ n ∈ found, n < next)
      ∧ result = .ok ⟨path, current.getD next, next⟩
      ∧ s' = if current.isSome then s.persist (Path.version path next) v
        else (s.persist (Path.version path next) v).persist (Path.activeVersion path) (toString next)) s := by
  have hroom' : ∀ f, nextRevision found ≠ .error f := fun f hfull =>
    Nat.lt_irrefl _ (hroom _ (eq_of_nextRevision_eq_error (fun n hn => Nat.le_of_lt (hroom n hn)) hfull).2)
  -- of the ways in which staging can go, those that fail are excluded: the revisions can be listed, and
  -- there is a number left
  refine keeps_stage_cases (fun _ he => he.elim) (fun f hf => by rw [hf] at hfound; cases hfound)
    (fun found' f hfound' hfull => ?_) fun found' next hfound' hnext => ?_
  · obtain rfl : found = found' := Except.ok.inj (hfound.symm.trans hfound')
    exact absurd hfull (hroom' f)
  · obtain rfl : found = found' := Except.ok.inj (hfound.symm.trans hfound')
    obtain ⟨hle, hlt⟩ := lt_of_nextRevision hnext
    rw [hpointer]
    -- without a pointer the first revision is made the active one at once
    cases current with
    | some current => exact ⟨next, hle, hlt, rfl, rfl⟩
    | none => exact ⟨next, hle, hlt, rfl, rfl⟩

/-- **What staging a text reveals**: nothing of a ready item, which shows what it has shown, and the text of a
vacant one. -/
structure Revealed (r r' : Repository) (path : Path) (v : String) : Prop where
  kept : Ready r path → value r' path = value r path
  first : Vacant r path → Shows r' path v

/-- What is revealed of an item is read off what is below it. -/
theorem Revealed.congr (h : Revealed r r' path v) (hsame : SameAt path r' r'') : Revealed r r'' path v :=
  ⟨fun hready => (value_congr hsame).trans (h.kept hready), fun hvacant => (h.first hvacant).congr hsame⟩

/-- What is revealed does not depend on how the item came to be as it was. -/
theorem Revealed.congr_left (h : Revealed r' r'' path v) (hsame : SameAt path r r') :
    Revealed r r'' path v :=
  ⟨fun hready => (h.kept (hready.congr hsame)).trans (value_congr hsame),
    fun hvacant => h.first (hvacant.congr hsame)⟩

/-- **Staging a revision of a ready item** does not change what it shows: the new number is none of those
that are there, so it is not the one that the pointer names. -/
theorem keeps_stage_ready (h : Ready s path) (v : String) :
    (stage path v).Keeps sure (fun result s' => (∃ switch, result = .ok switch)
      ∧ value s' path = value s path) s := by
  obtain ⟨n, hpointer, hpresent⟩ := h.pointed
  obtain ⟨found, hfound, hroom, hmem⟩ := h.exists_numbers
  refine (keeps_stage_listed hfound hroom hpointer v).mono ?_
  rintro _ s' ⟨next, -, hlt, rfl, rfl⟩
  refine ⟨⟨_, rfl⟩, ?_⟩
  -- the new revision has a number of its own, so the active one keeps its text
  have hne : n ≠ next := Nat.ne_of_lt (hlt n (hmem n (le_of_pointer hpointer) hpresent))
  have hpointer' : pointer (s.persist (Path.version path next) v) path = .ok (some n) := by
    rw [pointer_persist_version, hpointer]
  have hversion : (s.persist (Path.version path next) v).query (Path.version path n)
      = s.query (Path.version path n) :=
    query_persist_of_not_covers _ _ _ fun hcovers => hne (Path.covers_version_iff.1 hcovers)
  show value (s.persist (Path.version path next) v) path = _
  rw [value, value, hpointer', hpointer]
  exact congrArg Except.ok hversion

/-- **Staging the first revision** of an item shows it. -/
theorem keeps_stage_vacant (hpath : path ≠ "") (h : Vacant s path) (v : String) :
    (stage path v).Keeps sure (fun result s' => (∃ switch, result = .ok switch) ∧ Shows s' path v) s := by
  -- nothing is stored of the item, so it has neither a pointer nor revisions
  have hpointer : pointer s path = .ok none := by
    rw [pointer, h _ (Path.isAbove_activeVersion path).covers]
  have hfound : numbers s path = .ok [] := by
    have hnone : s.children (Path.versions path) = [] := by
      refine List.eq_nil_iff_forall_not_mem.2 fun name hname => ?_
      have hsome := (mem_children_versions_iff.1 hname).2
      rw [h _ ((Path.isAbove_versions path).covers.trans (Path.isAbove_child _ _).covers)] at hsome
      cases hsome
    rw [numbers, hnone]
    rfl
  refine (keeps_stage_listed hfound (fun n hn => absurd hn List.not_mem_nil) hpointer v).mono ?_
  rintro _ s' ⟨next, hle, -, rfl, rfl⟩
  -- the pointer leads to the revision that has just been written
  refine ⟨⟨_, rfl⟩, shows_of_pointer ?_ (pointer_of_text_eq (text_persist_self _) hle) ?_⟩
  · exact isSome_query_persist_of_covers _ _ _ hpath (Path.isAbove_activeVersion path).covers
  · show (Repository.persist _ _ _).query (Path.version path next) = some v
    rw [query_persist_of_not_covers _ _ _ Path.not_version_covers_activeVersion]
    exact s.query_persist_self _ v

/-- **Staging a text** reveals it only where nothing was stored. -/
theorem keeps_stage_revealed (hpath : path ≠ "") (h : Ready s path ∨ Vacant s path) (v : String) :
    (stage path v).Keeps sure (fun result s' => (∃ switch, result = .ok switch)
      ∧ Revealed s s' path v) s := by
  rcases h with hready | hvacant
  · refine (keeps_stage_ready hready v).mono fun _ s' h => ⟨h.1, fun _ => h.2, fun hvacant => ?_⟩
    exact absurd hvacant hready.not_vacant
  · refine (keeps_stage_vacant hpath hvacant v).mono fun _ s' h => ⟨h.1, fun hready => ?_, fun _ => h.2⟩
    exact absurd hvacant hready.not_vacant

/-- **Staging texts of several items** that are apart. -/
theorem keeps_mapM_stage_revealed {items : List (Path × String)} (hpaths : ∀ e ∈ items, e.1 ≠ "")
    (hapart : items.Pairwise fun a b => a.1.Apart b.1) {s : Repository}
    (hitems : ∀ e ∈ items, Ready s e.1 ∨ Vacant s e.1) :
    (items.mapM fun e => stage e.1 e.2).Keeps sure (fun result s' => (∃ switches, result = .ok switches)
      ∧ ∀ e ∈ items, Revealed s s' e.1 e.2) s := by
  induction items generalizing s with
  | nil => exact ⟨⟨[], rfl⟩, fun _ he => absurd he List.not_mem_nil⟩
  | cons e items ih =>
    rw [List.pairwise_cons] at hapart
    rw [List.forall_mem_cons] at hpaths hitems
    have hframe : (stage e.1 e.2).Keeps sure (fun _ s' => ∀ root, e.1.Apart root → SameAt root s s') s :=
      Access.keeps_of_unsure (Access.keeps_sameAt_within (uses_stage e.1 e.2) s)
    rw [List.mapM_cons]
    refine ((keeps_stage_revealed hpaths.1 hitems.1 e.2).and hframe).bind (fun switch s₁ h₁ => ?_)
      fun f s₁ h₁ => ?_
    · obtain ⟨⟨-, hrevealed⟩, hsame⟩ := h₁
      -- the other items are still what they were, and staging them leaves this one alone
      have hitems₁ : ∀ e' ∈ items, Ready s₁ e'.1 ∨ Vacant s₁ e'.1 := fun e' he' =>
        (hitems.2 e' he').imp (·.congr (hsame _ (hapart.1 e' he'))) (·.congr (hsame _ (hapart.1 e' he')))
      refine ((ih hpaths.2 hapart.2 hitems₁).and
        (Access.keeps_of_unsure (keeps_mapM_stage hpaths.2 hapart.2 s₁))).bind
        (fun switches s' h' => ?_) fun f s' h' => ?_
      · obtain ⟨⟨-, hrest⟩, happart, -⟩ := h'
        refine ⟨⟨_, rfl⟩, List.forall_mem_cons.2 ⟨?_, fun e' he' => ?_⟩⟩
        · exact hrevealed.congr (happart _ fun e' he' => (hapart.1 e' he').symm)
        · exact (hrest e' he').congr_left (hsame _ (hapart.1 e' he'))
      · obtain ⟨switches, h⟩ := h'.1.1
        cases h
    · obtain ⟨switch, h⟩ := h₁.1.1
      cases h

end Item

/-! ### What is stored of units -/

namespace Stored

variable {r r' s : Repository} {db name : String} {units old : SortedMap PoolProperties}

/-- **Units are laid over stored ones**: of the given units their properties are stored, and of all others what
was stored before. -/
def UnitsOver (db : String) (units : SortedMap PoolProperties) (r r' : Repository) : Prop :=
  ∀ name, Path.IsName name → unit? r' db name
    = ((units.get? name).map fun properties => .ok (some (Codec.write properties))).or (unit? r db name)

/-- A unit is loaded as an entry of a listing is. -/
theorem loaded_eq_entryOf (name : String) (shown : Except Failure (Option String)) :
    loaded name shown = entryOf name shown := by
  rcases shown with f | _ | text
  · rfl
  · rfl
  · show (parsed text >>= fun properties => pure [(name, properties)]) = _
    rw [parsed, entryOf]
    cases (Codec.read? text : Option PoolProperties) <;> rfl

/-- **The units of a database are loaded as the items of any listing are**, so what holds of these holds
of them. -/
theorem unitsIn_eq_itemsIn (r : Repository) (db : String) :
    unitsIn r db = itemsIn r (Path.storageUnits db) (Path.storageUnit db) := by
  unfold unitsIn itemsIn
  simp only [loaded_eq_entryOf]

/-- What a unit that is listed shows is what its item has as its value. -/
theorem unit?_eq_some_iff {shown : Except Failure (Option String)} (hname : Path.IsName name) :
    unit? r db name = some shown
      ↔ (r.query (Path.storageUnit db name)).isSome ∧ Item.value r (Path.storageUnit db name) = shown := by
  rw [unit?, Option.ite_none_right_eq_some, mem_children_storageUnits, and_iff_right hname, Option.some_inj]

/-- A unit is not listed if it has no node. -/
theorem unit?_eq_none_iff (hname : Path.IsName name) :
    unit? r db name = none ↔ r.query (Path.storageUnit db name) = none := by
  rw [unit?, ite_eq_right_iff, mem_children_storageUnits, and_iff_right hname]
  simp

/-- **What is loaded of a unit** is told by what is stored of it. -/
theorem loads_iff_unit? (hname : Path.IsName name) {a : Option PoolProperties} :
    Item.Loads r (Path.storageUnit db name) a ↔ match a with
      | some properties => ∃ text, unit? r db name = some (.ok (some text))
        ∧ Codec.read? text = some properties
      | none => unit? r db name = none ∨ unit? r db name = some (.ok none) := by
  simp only [unit?_eq_some_iff hname, unit?_eq_none_iff hname]
  cases a with
  | some properties =>
    exact exists_congr fun text => and_congr_left fun _ =>
      ⟨fun h => ⟨h.node, h.value⟩, fun h => ⟨h.1, h.2⟩⟩
  | none =>
    -- a unit that shows nothing has a node nevertheless
    refine or_congr_right' fun hnode => ?_
    rw [← Ne, ← Option.isSome_iff_ne_none] at hnode
    exact (and_iff_right hnode).symm

/-- **What is loaded where units are laid over stored ones** are their properties laid over those that were
loaded before. -/
theorem unitsIn_of_unitsOver (h : UnitsOver db units r r')
    (hnames : ∀ name, units.contains name = true → Path.IsName name) (hold : unitsIn r db = .ok old) :
    unitsIn r' db = .ok (old.overlay units) := by
  rw [unitsIn_eq_itemsIn, itemsIn_eq_ok_iff (Path.below_storageUnits db)] at hold ⊢
  -- which names there are, and then what each of them shows
  refine ⟨fun name hcontains => ?_, fun name hname => ?_⟩
  · rw [SortedMap.contains_overlay, Bool.or_eq_true] at hcontains
    exact hcontains.elim (hnames name) (hold.1 name)
  · have hunit := h name hname
    have hloads := hold.2 name hname
    rw [loads_iff_unit? hname] at hloads ⊢
    rw [SortedMap.get?_overlay]
    -- a unit that was written shows its new properties, any other one what it showed before
    cases hget : units.get? name with
    | some properties =>
      rw [hget] at hunit
      exact ⟨_, hunit, Codec.read?_write_poolProperties properties⟩
    | none =>
      rw [hget] at hunit
      rw [Option.none_or, hunit]
      exact hloads

section Units

variable (hnames : ∀ name, units.contains name = true → Path.IsName name)

include hnames

/-- Units that show their properties are laid over stored ones, if everything apart from them is as before. -/
theorem unitsOver_of_shows (hsame : Item.SameApart (unitItems db units) r r')
    (hshows : ∀ e ∈ unitItems db units, Item.Shows r' e.1 e.2) : UnitsOver db units r r' := by
  intro name hname
  cases hget : units.get? name with
  | some properties =>
    have hentry := (units.get?_eq_some_iff).1 hget
    exact unit?_of_shows hname (hshows _ (List.mem_map.2 ⟨_, hentry, rfl⟩))
  | none => exact unit?_congr (sameAt_unit hnames hsame hname hget)

/-- **Writing units** gives a switch for each of them and reveals those that nothing was stored of. -/
theorem keeps_persistUnits_over (hrooted : Rooted s) (hold : unitsIn s db = .ok old)
    (hready : ∀ name ∈ s.children (Path.storageUnits db), Item.Ready s (Path.storageUnit db name)) :
    (persistUnits db units).Keeps sure (fun result s' => (∃ switches, result = .ok switches
        ∧ List.Forall₂ (fun e switch => switch.path = e.1 ∧ Item.Staged s' switch e.2)
          (unitItems db units) switches)
      ∧ Item.SameApart (unitItems db units) s s'
      ∧ UnitsOver db (units.filter fun name _ => !old.contains name) s s') s := by
  have hname := isName_of_mem_entries hnames
  -- a unit that is listed is ready, and the others are vacant
  have hvacant : ∀ {name}, Path.IsName name → name ∉ s.children (Path.storageUnits db) →
      Item.Vacant s (Path.storageUnit db name) := by
    intro name hisName hlisted
    refine Item.vacant_of_query_eq_none hrooted (Path.storageUnit_ne_empty db name) ?_
    exact (unit?_eq_none_iff hisName).1 (if_neg hlisted)
  have hitems : ∀ e ∈ unitItems db units, Item.Ready s e.1 ∨ Item.Vacant s e.1 := by
    intro e he
    obtain ⟨entry, hentry, rfl⟩ := List.mem_map.1 he
    by_cases hlisted : entry.1 ∈ s.children (Path.storageUnits db)
    · exact .inl (hready _ hlisted)
    · exact .inr (hvacant (hname _ hentry) hlisted)
  have hcontains : ∀ name, old.contains name = true ↔ name ∈ s.children (Path.storageUnits db) := by
    intro name
    rw [contains_unitsIn hold, ← isSome_unit?]
    refine ⟨fun ⟨text, h⟩ => h ▸ rfl, fun h => ?_⟩
    have hlisted := isSome_unit?.1 h
    obtain ⟨text, htext⟩ := (hready name hlisted).exists_value
    exact ⟨text, by rw [unit?, if_pos hlisted, htext]⟩
  have hapart : (unitItems db units).Pairwise fun a b => a.1.Apart b.1 := apart_unitItems hnames
  have hstaged := Item.keeps_mapM_stage unitItems_ne_empty hapart s
  have hrevealed := Item.keeps_mapM_stage_revealed unitItems_ne_empty hapart hitems
  rw [persistUnits_eq]
  refine ((hrevealed.and (Access.keeps_of_unsure hstaged)).and
    (Access.keeps_of_unsure (keeps_rooted _ hrooted))).mono ?_
  rintro _ s' ⟨⟨⟨⟨switches, rfl⟩, hrevealed⟩, hsame, hstaged⟩, hrooted'⟩
  refine ⟨⟨switches, rfl, hstaged switches rfl⟩, hsame, fun name hisName => ?_⟩
  rw [SortedMap.get?_filter]
  cases hget : units.get? name with
  | none => exact unit?_congr (sameAt_unit hnames hsame hisName hget)
  | some properties =>
    have hrevealed := hrevealed _ (List.mem_map.2 ⟨_, (units.get?_eq_some_iff).1 hget, rfl⟩)
    by_cases hlisted : name ∈ s.children (Path.storageUnits db)
    · -- a stored unit still shows its old text
      rw [Option.filter_some, (hcontains name).2 hlisted]
      obtain ⟨text, htext⟩ := (hready name hlisted).exists_value
      have hvalue := (hrevealed.kept (hready name hlisted)).trans htext
      have hnode := Item.isSome_query_of_value hrooted' (Path.storageUnit_ne_empty db name) hvalue
      rw [(unit?_eq_some_iff hisName).2 ⟨hnode, hvalue⟩, unit?, if_pos hlisted, htext]
      rfl
    · rw [Option.filter_some, Bool.eq_false_iff.2 fun h => hlisted ((hcontains name).1 h)]
      exact unit?_of_shows hisName (hrevealed.first (hvacant hisName hlisted))

/-- **Committing the first switches of written units** shows the properties of these units. -/
theorem keeps_commit_over {switches : List PendingSwitch}
    (hstaged : List.Forall₂ (fun e switch => switch.path = e.1 ∧ Item.Staged s switch e.2)
      (unitItems db units) switches) (k : Nat) :
    (Item.commit (switches.take k)).Keeps sure (fun result s' => result = .ok ()
      ∧ Item.SameApart (unitItems db (units.take k)) s s' ∧ UnitsOver db (units.take k) s s') s := by
  -- the switches that are committed belong to the first units, in the same order
  have htake : unitItems db (units.take k) = (unitItems db units).take k := List.map_take
  have hnames' : ∀ name, (units.take k).contains name = true → Path.IsName name := fun name h =>
    hnames name (SortedMap.contains_of_take h)
  have hstaged' := List.forall₂_take k hstaged
  rw [← htake] at hstaged'
  refine ((Item.keeps_commit_ends_well _ s).and
    (Access.keeps_of_unsure (Item.keeps_commit_shows (apart_unitItems hnames') hstaged'))).mono ?_
  rintro _ s' ⟨rfl, hsame, hshows⟩
  exact ⟨rfl, hsame, unitsOver_of_shows hnames' hsame (hshows rfl)⟩

end Units

/-- **What is loaded between the commits of a batch of units.** Where the units of a database can be loaded, and
each stored one is ready for another revision, writing units gives one switch for each of them, in the order of
the names. Then those units of the batch are new that were not stored, and the others are loaded as they were.
When the first switches have been committed, however many, what is loaded are the first units of the batch over
that. Units that are not in the batch are left alone all the time, with everything that is stored below them.

That with a node there are the nodes above it is so in every repository that was changed by calls only
(`TreeChange.rooted_replay`). A unit without a node is therefore one that nothing is stored of. -/
theorem loadUnits_between_commits (hrooted : Rooted s)
    (hold : ((loadUnits db).run answer s).1 = .ok old)
    (hready : ∀ name ∈ s.children (Path.storageUnits db), Item.Ready s (Path.storageUnit db name))
    (hnames : ∀ name, units.contains name = true → Path.IsName name) :
    let fresh := units.filter fun name _ => !old.contains name
    ∃ switches s', (persistUnits db units).run answer s = (.ok switches, s')
      ∧ switches.map (·.path) = units.keys.map (Path.storageUnit db)
      ∧ (loadUnits db).run answer s' = (.ok (old.overlay fresh), s')
      ∧ ∀ k, ∃ sk, (Item.commit (switches.take k)).run answer s' = (.ok (), sk)
        ∧ (loadUnits db).run answer sk = (.ok ((old.overlay fresh).overlay (units.take k)), sk)
        ∧ ∀ name, Path.IsName name → units.get? name = none →
          SameAt (Path.storageUnit db name) s s' ∧ SameAt (Path.storageUnit db name) s sk := by
  intro fresh
  rw [(reads_loadUnits s db).run] at hold
  -- staging: every unit shows what it showed before, and a new one what it was given
  obtain ⟨⟨switches, hresult, hstaged⟩, hsame, hover⟩ :=
    Access.keeps_run_iff.1 (keeps_persistUnits_over hnames hrooted hold hready)
  have hfresh : ∀ name, fresh.contains name = true → Path.IsName name := by
    intro name hcontains
    obtain ⟨properties, hget⟩ := SortedMap.contains_iff.1 hcontains
    rw [SortedMap.get?_filter, Option.filter_eq_some_iff] at hget
    exact hnames name (SortedMap.contains_iff.2 ⟨properties, hget.1⟩)
  have hloaded := unitsIn_of_unitsOver hover hfresh hold
  refine ⟨switches, _, Prod.ext hresult rfl, ?_, ?_, fun k => ?_⟩
  · -- there is one switch for each unit, in the order of their names
    have hpaths : List.Forall₂ (fun switch e => switch.path = e.1) switches (unitItems db units) :=
      hstaged.flip.imp fun _ _ h => h.1
    have hmaps : List.Forall₂ Eq (switches.map (·.path)) ((unitItems db units).map Prod.fst) :=
      List.forall₂_map_left_iff.2 (List.forall₂_map_right_iff.2 hpaths)
    rw [List.forall₂_eq_eq_eq] at hmaps
    rw [hmaps, unitItems, SortedMap.keys, List.map_map, List.map_map]
    rfl
  · rw [(reads_loadUnits _ db).run, hloaded]
  · -- committing the first `k` of them lays the units that they belong to over what was loaded
    obtain ⟨hcommitted, hsame', hover'⟩ := Access.keeps_run_iff.1 (keeps_commit_over hnames hstaged k)
    have htaken : ∀ name, (units.take k).contains name = true → Path.IsName name := fun name h =>
      hnames name (SortedMap.contains_of_take h)
    refine ⟨_, Prod.ext hcommitted rfl, ?_, fun name hname hnone => ?_⟩
    · rw [(reads_loadUnits _ db).run, unitsIn_of_unitsOver hover' htaken hloaded]
    · have hstays := sameAt_unit hnames hsame hname hnone
      exact ⟨hstays, hstays.trans (sameAt_unit htaken hsame' hname (SortedMap.get?_take_of_none hnone))⟩

/-- A stored unit, with a revision and a pointer that are spelled in other ways than they are written. -/
private def storedUnit : Repository := .memory ⟨⟨
  [("/metadata", ""), ("/metadata/d", ""), ("/metadata/d/data_sources", ""),
    ("/metadata/d/data_sources/units", ""), ("/metadata/d/data_sources/units/a", ""),
    ("/metadata/d/data_sources/units/a/active_version", "00"),
    ("/metadata/d/data_sources/units/a/versions", ""),
    ("/metadata/d/data_sources/units/a/versions/+007", "later"),
    ("/metadata/d/data_sources/units/a/versions/0", Codec.write (PoolProperties.mk "h1" "u" "" ∅))],
  by decide +kernel⟩⟩

/-- The properties of units, told by where they connect to. -/
private def unitsTo (urls : List (String × String)) : SortedMap PoolProperties :=
  SortedMap.ofList (urls.map fun e => (e.1, PoolProperties.mk e.2 "u" "" ∅))

/-- The one unit that is stored is ready, though the name of one of its revisions is written oddly. -/
private theorem ready_storedUnit : ∀ name ∈ storedUnit.children (Path.storageUnits "d"),
    Item.Ready storedUnit (Path.storageUnit "d" name) := by
  have hunits : storedUnit.children (Path.storageUnits "d") = ["a"] := by decide +kernel
  have hrevisions : storedUnit.children (Path.versions (Path.storageUnit "d" "a")) = ["+007", "0"] := by
    decide +kernel
  have hpointer : Item.pointer storedUnit (Path.storageUnit "d" "a") = .ok (some 0) := by decide +kernel
  have hpresent : (storedUnit.query (Path.version (Path.storageUnit "d" "a") 0)).isSome := by decide +kernel
  rw [hunits, List.forall_mem_singleton]
  refine ⟨⟨0, hpointer, hpresent⟩, ?_⟩
  rw [hrevisions, List.forall_mem_cons, List.forall_mem_singleton]
  exact ⟨⟨7, by decide, by decide⟩, ⟨0, by decide, by decide⟩⟩

/-- The stored unit is altered, and another one is new. -/
theorem loadUnits_between_commits_of_altered_and_new :
    let s := storedUnit
    let old := unitsTo [("a", "h1")]
    let units := unitsTo [("a", "h2"), ("b", "h2")]
    Rooted s ∧ ((loadUnits "d").run answer s).1 = .ok old
      ∧ (∀ name ∈ s.children (Path.storageUnits "d"), Item.Ready s (Path.storageUnit "d" name))
      ∧ (∀ name, units.contains name = true → Path.IsName name)
      ∧ ∃ switches s', (persistUnits "d" units).run answer s = (.ok switches, s')
        ∧ switches.map (·.path) = [Path.storageUnit "d" "a", Path.storageUnit "d" "b"]
        ∧ (loadUnits "d").run answer s' = (.ok (unitsTo [("a", "h1"), ("b", "h2")]), s')
        ∧ ∃ sk, (Item.commit (switches.take 1)).run answer s' = (.ok (), sk)
          ∧ (loadUnits "d").run answer sk = (.ok units, sk) := by
  intro s old units
  have hrooted : Rooted s := rooted_of_ancestors (by decide +kernel)
  have hold : ((loadUnits "d").run answer s).1 = .ok old := by decide +kernel
  have hkeys : ∀ name ∈ units.keys, Path.IsName name := by decide
  have hnames : ∀ name, units.contains name = true → Path.IsName name := fun name h =>
    hkeys name ((SortedMap.mem_keys_iff _).2 h)
  have hstaged : old.overlay (units.filter fun name _ => !old.contains name)
      = unitsTo [("a", "h1"), ("b", "h2")] := by decide +kernel
  have hfirst : (unitsTo [("a", "h1"), ("b", "h2")]).overlay (units.take 1) = units := by decide +kernel
  obtain ⟨switches, s', hpersisted, hpaths, hloaded, hcommitted⟩ :=
    loadUnits_between_commits hrooted hold ready_storedUnit hnames
  -- after one of two commits, which the altered unit is the first to get
  obtain ⟨sk, hcommit, hloadedk, -⟩ := hcommitted 1
  rw [hstaged] at hloaded hloadedk
  rw [hfirst] at hloadedk
  exact ⟨hrooted, hold, ready_storedUnit, hnames, switches, s', hpersisted, hpaths, hloaded, sk, hcommit,
    hloadedk⟩

end Stored

end ClusterCatalog
