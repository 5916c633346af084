import ClusterCatalog.Proofs.SortedMap
import ClusterCatalog.Proofs.Store.Pointer
import ClusterCatalog.Store.Units

/-!
# What is stored of storage units

The units that are loaded for a database depend on one thing for each name: whether it is listed, and
what its item shows (`Stored.unit?`, `Stored.unitsIn_congr`). Replacing units is staging a revision of each and
then committing all of them; if that succeeds, each item shows its new text, and whether it succeeds
or not, everything apart from these items is as before (`Item.keeps_replace`).
-/

namespace ClusterCatalog

open Plan Repository

/-! ### Items that are replaced -/

namespace Item

variable {r r' : Repository} {path : Path} {v : String}

/-- **An item shows a text**, and its node is there. -/
structure Shows (r : Repository) (path : Path) (v : String) : Prop where
  node : (r.query path).isSome
  value : Item.value r path = .ok (some v)

/-- **A staged revision**: it is written, and if there is nothing left to commit the pointer names it
already. -/
structure Staged (r : Repository) (switch : PendingSwitch) (v : String) : Prop where
  node : (r.query switch.path).isSome
  written : r.query (Path.version switch.path switch.next) = some v
  inRange : switch.next ≤ maxRevision
  pointed : switch.isRequired = false → pointer r switch.path = .ok (some switch.next)

theorem pointer_congr (h : SameAt path r r') : pointer r' path = pointer r path := by
  unfold pointer
  rw [h _ (Path.isAbove_activeVersion path).covers]

/-- What an item shows depends only on what is below it. -/
theorem value_congr (h : SameAt path r r') : value r' path = value r path := by
  unfold value
  rw [pointer_congr h]
  have hversion : ∀ n, r'.query (Path.version path n) = r.query (Path.version path n) := fun n =>
    h _ (Path.isAbove_version path n).covers
  simp only [hversion]

theorem Shows.congr (h : Shows r path v) (hsame : SameAt path r r') : Shows r' path v :=
  ⟨by rw [hsame _ (.refl _)]; exact h.node, (value_congr hsame).trans h.value⟩

theorem Staged.congr {switch : PendingSwitch} (h : Staged r switch v)
    (hsame : SameAt switch.path r r') : Staged r' switch v where
  node := by rw [hsame _ (.refl _)]; exact h.node
  written := (hsame _ (Path.isAbove_version _ _).covers).trans h.written
  inRange := h.inRange
  pointed hrequired := (pointer_congr hsame).trans (h.pointed hrequired)

theorem shows_of_pointer {n : Nat} (hnode : (r.query path).isSome)
    (hpointer : pointer r path = .ok (some n)) (hwritten : r.query (Path.version path n) = some v) :
    Shows r path v := by
  refine ⟨hnode, ?_⟩
  rw [value, hpointer]
  exact congrArg Except.ok hwritten

/-- **Staging**, if it succeeds, leaves a staged revision. -/
theorem keeps_stage (hpath : path ≠ "") (v : String) (s : Repository) :
    (stage path v).Keeps unsure
      (fun r s' => ∀ switch, r = .ok switch → switch.path = path ∧ Staged s' switch v) s := by
  refine keeps_stage_cases (fun _ _ => ⟨(fun _ h => by cases h), fun _ _ h => by cases h⟩)
    (fun _ _ _ h => by cases h) (fun _ _ _ _ _ h => by cases h) fun _ next _ hnext => ?_
  have hrange := (lt_of_nextRevision hnext).1
  have hnode : ((s.persist (Path.version path next) v).query path).isSome :=
    isSome_query_persist_of_covers _ _ _ hpath (Path.isAbove_version path next).covers
  have hwritten := s.query_persist_self (Path.version path next) v
  cases hpointer : pointer s path with
  | error f => exact fun _ h => by cases h
  | ok found =>
    cases found with
    | some current =>
      -- a dangling pointer may name the new revision already; then nothing is left to commit
      rintro switch h
      cases h
      refine ⟨rfl, hnode, hwritten, hrange, fun hrequired => ?_⟩
      obtain rfl : current = next := by simpa [PendingSwitch.isRequired] using hrequired
      exact (pointer_persist_version current v).trans hpointer
    | none =>
      -- the first revision is committed along with its pointer
      rintro switch h
      cases h
      refine ⟨rfl, isSome_query_persist _ _ _ hnode, ?_, hrange, fun _ => ?_⟩
      · show (Repository.persist _ _ _).query (Path.version path next) = some v
        rw [query_persist_of_not_covers _ _ _ Path.not_version_covers_activeVersion]
        exact hwritten
      · exact pointer_of_text_eq (text_persist_self _) hrange

/-- **Committing** a staged revision, if it succeeds, shows it. Pruning stays below the revision. -/
theorem keeps_commitOne_shows {switch : PendingSwitch} {s : Repository} (h : Staged s switch v) :
    (commitOne switch).Keeps unsure (fun r s' => r = .ok () → Shows s' switch.path v) s := by
  refine keeps_commitOne_cases (fun _ _ hok => by cases hok) (fun hrequired _ => ?_)
    fun s' _ hmoved _ => ?_
  · -- there is nothing left to commit, so the pointer names the revision already
    exact shows_of_pointer h.node (h.pointed hrequired) h.written
  · exact shows_of_pointer (hmoved.node h.node) (pointer_of_text_eq hmoved.pointer h.inRange)
      ((hmoved.query_version le_rfl).trans h.written)

/-! ### Several items -/

/-- Everything that is apart from items is the same. -/
def SameApart (items : List (Path × String)) (r r' : Repository) : Prop :=
  ∀ root, (∀ e ∈ items, e.1.Apart root) → SameAt root r r'

/-- What happens to one item, and then to others, leaves alone what is apart from all of them. -/
theorem SameApart.cons {r'' : Repository} {e : Path × String} {items : List (Path × String)}
    (h : ∀ root, e.1.Apart root → SameAt root r r') (hrest : SameApart items r' r'') :
    SameApart (e :: items) r r'' := fun root hroot =>
  (h root (hroot e List.mem_cons_self)).trans
    (hrest root fun e' he' => hroot e' (List.mem_cons_of_mem _ he'))

/-- Items stay staged as long as they are left alone. -/
theorem staged_congr {items : List (Path × String)} {switches : List PendingSwitch}
    (h : List.Forall₂ (fun e switch => switch.path = e.1 ∧ Staged r switch e.2) items switches)
    (hsame : ∀ e ∈ items, SameAt e.1 r r') :
    List.Forall₂ (fun e switch => switch.path = e.1 ∧ Staged r' switch e.2) items switches := by
  induction h with
  | nil => exact .nil
  | cons hhead _ ih =>
    obtain ⟨hpath, hstaged⟩ := hhead
    have hsame₁ := hsame _ List.mem_cons_self
    exact .cons ⟨hpath, hstaged.congr (hpath ▸ hsame₁)⟩
      (ih fun e he => hsame e (List.mem_cons_of_mem _ he))

/-- **Staging items** that are apart leaves everything else alone; if it succeeds, each is staged. -/
theorem keeps_mapM_stage {items : List (Path × String)} (hpaths : ∀ e ∈ items, e.1 ≠ "")
    (hapart : items.Pairwise fun a b => a.1.Apart b.1) (s : Repository) :
    (items.mapM fun e => stage e.1 e.2).Keeps unsure (fun r s' => SameApart items s s'
      ∧ ∀ switches, r = .ok switches →
        List.Forall₂ (fun e switch => switch.path = e.1 ∧ Staged s' switch e.2) items switches) s := by
  induction items generalizing s with
  | nil =>
    refine ⟨fun root _ => .refl root s, ?_⟩
    rintro switches h
    cases h
    exact .nil
  | cons e items ih =>
    rw [List.pairwise_cons] at hapart
    have htail := ih (fun e he => hpaths e (List.mem_cons_of_mem _ he)) hapart.2
    have hframe := Access.keeps_sameAt_within (uses_stage e.1 e.2) s
    rw [List.mapM_cons]
    refine (hframe.and (keeps_stage (hpaths e List.mem_cons_self) e.2 s)).bind
      (fun switch s₁ h₁ => ?_) fun f s₁ h₁ => ⟨?_, fun _ h => by cases h⟩
    · obtain ⟨hpath, hstaged⟩ := h₁.2 switch rfl
      refine (htail s₁).bind (fun switches s' h' => ?_) fun f s' h' => ⟨?_, fun _ h => by cases h⟩
      · refine ⟨.cons h₁.1 h'.1, ?_⟩
        rintro all h
        cases h
        -- staging the others leaves this one alone
        have hsame : SameAt e.1 s₁ s' := h'.1 e.1 fun e' he' => (hapart.1 e' he').symm
        exact .cons ⟨hpath, hstaged.congr (hpath ▸ hsame)⟩ (h'.2 switches rfl)
      · exact .cons h₁.1 h'.1
    · exact .cons h₁.1 fun root _ => .refl root s₁

/-- **Committing staged items** that are apart leaves everything else alone; if it succeeds, each
shows its text. -/
theorem keeps_commit_shows {items : List (Path × String)} {switches : List PendingSwitch}
    (hapart : items.Pairwise fun a b => a.1.Apart b.1) {s : Repository}
    (hstaged : List.Forall₂ (fun e switch => switch.path = e.1 ∧ Staged s switch e.2) items switches) :
    (commit switches).Keeps unsure (fun r s' => SameApart items s s'
      ∧ (r = .ok () → ∀ e ∈ items, Shows s' e.1 e.2)) s := by
  induction items generalizing switches s with
  | nil =>
    cases hstaged
    exact ⟨fun root _ => .refl root s, fun _ e he => absurd he List.not_mem_nil⟩
  | cons e items ih =>
    rw [List.pairwise_cons] at hapart
    obtain _ | @⟨_, switch, _, switches, ⟨hpath, hhead⟩, htail⟩ := hstaged
    rw [commit_cons]
    have hframe := Access.keeps_sameAt_within (uses_commitOne switch) s
    rw [hpath] at hframe
    refine (hframe.and (keeps_commitOne_shows hhead)).bind (fun _ s₁ h₁ => ?_)
      fun f s₁ h₁ => ⟨?_, fun h => by cases h⟩
    · -- committing the first item leaves the others staged
      have htail₁ := staged_congr htail fun e' he' => h₁.1 e'.1 (hapart.1 e' he')
      refine (ih hapart.2 htail₁).mono fun r s' h' => ⟨.cons h₁.1 h'.1, fun hr e' he' => ?_⟩
      rcases List.mem_cons.1 he' with rfl | he'
      · -- and committing the others leaves the first one shown
        have hsame : SameAt e'.1 s₁ s' := h'.1 e'.1 fun e'' he'' => (hapart.1 e'' he'').symm
        have hshows := h₁.2 rfl
        rw [hpath] at hshows
        exact hshows.congr hsame
      · exact h'.2 hr e' he'
    · exact .cons h₁.1 fun root _ => .refl root s₁

/-- **Replacing items** that are apart leaves everything else alone; if it succeeds, each shows its
text. -/
theorem keeps_replace {items : List (Path × String)} (hpaths : ∀ e ∈ items, e.1 ≠ "")
    (hapart : items.Pairwise fun a b => a.1.Apart b.1) (s : Repository) :
    ((items.mapM fun e => stage e.1 e.2) >>= commit).Keeps unsure (fun r s' => SameApart items s s'
      ∧ (r = .ok () → ∀ e ∈ items, Shows s' e.1 e.2)) s := by
  refine (keeps_mapM_stage hpaths hapart s).bind (fun switches s₁ h₁ => ?_)
    fun f s₁ h₁ => ⟨h₁.1, fun h => by cases h⟩
  refine (keeps_commit_shows hapart (h₁.2 switches rfl)).mono fun r s' h' => ⟨fun root hroot => ?_, h'.2⟩
  exact (h₁.1 root hroot).trans (h'.1 root hroot)

end Item

/-! ### The place of units -/

namespace Path

variable {db : String}

theorem storageUnit_ne_empty (db name : String) : storageUnit db name ≠ "" := child_ne_empty _ _

/-- What is found below the units of a database is the node of a unit. -/
theorem below_storageUnits (db name : String) :
    below (storageUnits db) ++ name = storageUnit db name := below_child_append (by decide) name

theorem database_covers_schemas (db : String) : (database db).Covers (schemas db) :=
  (isAbove_child _ _).covers

theorem database_covers_storageUnits (db : String) : (database db).Covers (storageUnits db) :=
  (isAbove_child _ _).covers.trans (isAbove_child _ _).covers

theorem storageUnits_cover (db name : String) : (storageUnits db).Covers (storageUnit db name) :=
  (isAbove_child _ _).covers

theorem apart_storageUnit {a b : String} (ha : IsName a) (hb : IsName b) (hne : a ≠ b) :
    (storageUnit db a).Apart (storageUnit db b) := apart_child ha.2 hb.2 hne

/-- Schemas and units are apart. -/
theorem apart_schemas_storageUnit (db name : String) :
    (schemas db).Apart (storageUnit db name) := by
  have h : (schemas db).Apart (child (database db) "data_sources") :=
    apart_child (by decide) (by decide) (by decide)
  exact h.mono (.refl _) ((isAbove_child _ _).covers.trans (isAbove_child _ _).covers)

/-- Statistics and metadata are apart. -/
theorem apart_statisticsRoot_database (db : String) : statisticsRoot.Apart (database db) := by
  have h : (child "" "statistics").Apart (child "" "metadata") :=
    apart_child (by decide) (by decide) (by decide)
  exact h.mono (isAbove_child _ "databases").covers (isAbove_child metadataRoot db).covers

/-- Statistics and units are apart. -/
theorem apart_statisticsRoot_storageUnit (db name : String) :
    statisticsRoot.Apart (storageUnit db name) :=
  (apart_statisticsRoot_database db).mono (.refl _)
    ((database_covers_storageUnits db).trans (storageUnits_cover db name))

end Path

/-! ### Loaded units -/

namespace Stored

variable {r r' : Repository} {db name : String}

theorem mem_children_storageUnits :
    name ∈ r.children (Path.storageUnits db)
      ↔ Path.IsName name ∧ (r.query (Path.storageUnit db name)).isSome := by
  rw [mem_children_iff, Path.below_storageUnits]

/-- **What is stored of a unit**: nothing if it is not listed, and else what its item shows. -/
def unit? (r : Repository) (db name : String) : Option (Except Failure (Option String)) :=
  if name ∈ r.children (Path.storageUnits db) then
    some (Item.value r (Path.storageUnit db name))
  else none

theorem isSome_unit? : (unit? r db name).isSome ↔ name ∈ r.children (Path.storageUnits db) := by
  unfold unit?
  split <;> simp [*]

theorem unit?_congr (h : SameAt (Path.storageUnit db name) r r') :
    unit? r' db name = unit? r db name := by
  unfold unit?
  rw [Item.value_congr h]
  refine if_congr ?_ rfl rfl
  rw [mem_children_storageUnits, mem_children_storageUnits, h _ (.refl _)]

theorem unit?_of_not_isName (h : ¬ Path.IsName name) : unit? r db name = none :=
  if_neg fun hlisted => h (mem_children_storageUnits.1 hlisted).1

theorem unit?_of_shows {text : String} (hname : Path.IsName name)
    (h : Item.Shows r (Path.storageUnit db name) text) : unit? r db name = some (.ok (some text)) := by
  rw [unit?, if_pos (mem_children_storageUnits.2 ⟨hname, h.node⟩), h.value]

/-- **Removing a unit** removes it and leaves the others alone. -/
theorem unit?_delete {unit : String} (hunit : Path.IsName unit) :
    unit? (r.delete (Path.storageUnit db unit)) db name
      = if name = unit then none else unit? r db name := by
  split
  · rename_i heq
    subst heq
    rw [unit?, if_neg]
    rw [mem_children_storageUnits, Path.storageUnit, query_delete_child _ _ hunit, if_pos (.refl _)]
    exact fun h => Bool.false_ne_true h.2
  · rename_i hne
    -- another unit is apart from the removed one; what is no name has no unit before or after
    by_cases hname : Path.IsName name
    · refine unit?_congr fun q hq => ?_
      rw [Path.storageUnit, query_delete_child _ _ hunit, if_neg]
      exact fun hcovers =>
        ((Path.apart_storageUnit hunit hname (Ne.symm hne)).mono hcovers hq).1 (.refl q)
    · rw [unit?_of_not_isName hname, unit?_of_not_isName hname]

/-- Units as items. -/
def unitItems (db : String) (units : SortedMap PoolProperties) : List (Path × String) :=
  units.entries.map fun e => (Path.storageUnit db e.1, Codec.write e.2)

theorem persistUnits_eq (db : String) (units : SortedMap PoolProperties) :
    persistUnits db units = (unitItems db units).mapM fun e => Item.stage e.1 e.2 := by
  rw [unitItems, List.mapM_map]
  rfl

theorem unitItems_ne_empty {units : SortedMap PoolProperties} : ∀ e ∈ unitItems db units, e.1 ≠ "" := by
  intro e he
  obtain ⟨e, -, rfl⟩ := List.mem_map.1 he
  exact Path.storageUnit_ne_empty db e.1

section UnitItems

variable {units : SortedMap PoolProperties}
  (hnames : ∀ name, units.contains name = true → Path.IsName name)

include hnames

theorem isName_of_mem_entries : ∀ e ∈ units.entries, Path.IsName e.1 := fun e he =>
  hnames e.1 (SortedMap.contains_iff.2 ⟨e.2, (units.get?_eq_some_iff).2 he⟩)

/-- Units with different names are apart. -/
theorem apart_unitItems : (unitItems db units).Pairwise fun a b => a.1.Apart b.1 := by
  have hname := isName_of_mem_entries hnames
  refine List.pairwise_map.2 (units.ascending.imp_of_mem fun {a b} ha hb hlt => ?_)
  exact Path.apart_storageUnit (hname a ha) (hname b hb) fun heq => String.lt_irrefl _ (heq ▸ hlt)

/-- A unit that is not among the given ones is left alone by what leaves alone everything apart from
them. -/
theorem sameAt_unit (h : Item.SameApart (unitItems db units) r r') (hname : Path.IsName name)
    (hnone : units.get? name = none) : SameAt (Path.storageUnit db name) r r' := by
  refine h _ fun e he => ?_
  obtain ⟨entry, hentry, rfl⟩ := List.mem_map.1 he
  refine Path.apart_storageUnit (isName_of_mem_entries hnames entry hentry) hname fun heq => ?_
  rw [← heq, (units.get?_eq_some_iff).2 hentry] at hnone
  cases hnone

/-- **Replacing units** leaves the others alone; if it succeeds, the properties of each are stored. -/
theorem keeps_replaceUnits (s : Repository) :
    (persistUnits db units >>= Item.commit).Keeps unsure (fun result s' => ∀ name,
      (units.get? name = none → unit? s' db name = unit? s db name)
      ∧ ∀ properties, units.get? name = some properties → result = .ok () →
        unit? s' db name = some (.ok (some (Codec.write properties)))) s := by
  have hname := isName_of_mem_entries hnames
  rw [persistUnits_eq]
  refine (Item.keeps_replace unitItems_ne_empty (apart_unitItems hnames) s).mono
    fun result s' h name => ⟨fun hnone => ?_, ?_⟩
  -- a unit that is not replaced: its item is apart, or it has no name that could be listed
  · by_cases hisName : Path.IsName name
    · exact unit?_congr (sameAt_unit hnames h.1 hisName hnone)
    · rw [unit?_of_not_isName hisName, unit?_of_not_isName hisName]
  · intro properties hsome hresult
    have hentry := (units.get?_eq_some_iff).1 hsome
    exact unit?_of_shows (hname _ hentry) (h.2 hresult _ (List.mem_map.2 ⟨_, hentry, rfl⟩))

end UnitItems

/-- **Writing schemas and statistics** leaves the units alone. -/
theorem keeps_unit?_of_uses {α : Type} {p : Access α}
    (h : p.Uses fun r : StoreRequest =>
      r.Concerns (Path.schemas db) ∨ r.Concerns Path.statisticsRoot)
    (s : Repository) : p.Keeps unsure (fun _ s' => ∀ name, unit? s' db name = unit? s db name) s := by
  refine (Access.keeps_sameAt (P := fun root => ∃ name, root = Path.storageUnit db name) h
    ?_ s).mono fun _ s' h name => unit?_congr (h _ ⟨name, rfl⟩)
  -- both places are apart from the units
  rintro r _ hr ⟨name, rfl⟩
  rcases hr with hr | hr
  · exact ⟨_, Path.apart_schemas_storageUnit db name, hr⟩
  · exact ⟨_, Path.apart_statisticsRoot_storageUnit db name, hr⟩

/-- The properties that a text stands for. -/
def parsed (text : String) : Except Failure PoolProperties :=
  (Codec.read? text).elim (.error (.error .malformedText)) .ok

/-- What is loaded of a unit whose item shows something. -/
def loaded (name : String) (shown : Except Failure (Option String)) :
    Except Failure (List (String × PoolProperties)) := do
  match ← shown with
  | some text => return [(name, ← parsed text)]
  | none => return []

/-- **The units of a database as they are loaded.** -/
def unitsIn (r : Repository) (db : String) : Except Failure (SortedMap PoolProperties) := do
  let found ← (r.children (Path.storageUnits db)).mapM fun name =>
    loaded name (Item.value r (Path.storageUnit db name))
  return SortedMap.ofList found.flatten

theorem parse_eq (text : String) :
    (Access.parse text : Access PoolProperties) = .ofResult (parsed text) := by
  unfold Access.parse parsed
  cases (Codec.read? text : Option PoolProperties) <;> rfl

/-- **Loading units** reads what is stored. -/
theorem reads_loadUnits (r : Repository) (db : String) :
    Access.Reads r (loadUnits db) (unitsIn r db) := by
  unfold loadUnits
  show Access.Reads r _ ((.ok (r.children (Path.storageUnits db)) : Except Failure (List String)) >>=
    fun names => (names.mapM fun name => loaded name (Item.value r (Path.storageUnit db name))) >>=
      fun found => pure (SortedMap.ofList found.flatten))
  refine (Access.reads_children _).bind fun names => ?_
  refine (Access.Reads.mapM (fun name => ?_) names).bind fun found => Access.reads_pure _
  refine (Item.reads_activeValue _).bind fun shown => ?_
  -- a unit without a revision is passed over with a warning, which changes nothing
  cases shown with
  | some text =>
    show Access.Reads r (Access.parse text >>= _) _
    rw [parse_eq]
    exact (Access.reads_ofResult _).bind fun properties => Access.reads_pure _
  | none => exact (Access.reads_warn _).bind fun _ => Access.reads_pure _

/-- A unit that was loaded contributes its properties, or nothing if it showed no text. -/
theorem loaded_eq_ok {shown : Except Failure (Option String)} {l : List (String × PoolProperties)}
    (h : loaded name shown = .ok l) :
    (shown = .ok none ∧ l = []) ∨ ∃ text properties, shown = .ok (some text)
      ∧ l = [(name, properties)] := by
  rcases shown with f | _ | text
  · cases h
  · cases h
    exact .inl ⟨rfl, rfl⟩
  · change (parsed text >>= fun properties => pure [(name, properties)]) = .ok l at h
    cases hparsed : parsed text with
    | error f => rw [hparsed] at h; cases h
    | ok properties =>
      rw [hparsed] at h
      cases h
      exact .inr ⟨text, properties, rfl, rfl⟩

/-- The names that are loaded are those of the listing that show something. -/
theorem mem_loaded_iff {names : List String} {shown : String → Except Failure (Option String)}
    {found : List (List (String × PoolProperties))} {unit : String}
    (h : (names.mapM fun name => loaded name (shown name)) = .ok found) :
    (∃ properties, (unit, properties) ∈ found.flatten)
      ↔ unit ∈ names ∧ ∃ text, shown unit = .ok (some text) := by
  induction names generalizing found with
  | nil =>
    cases h
    simp
  | cons name names ih =>
    rw [List.mapM_cons] at h
    cases hhead : loaded name (shown name) with
    | error f => rw [hhead] at h; cases h
    | ok head =>
      rw [hhead] at h
      cases htail : names.mapM fun name => loaded name (shown name) with
      | error f => rw [htail] at h; cases h
      | ok tail =>
        rw [htail] at h
        obtain rfl : head :: tail = found := Except.ok.inj h
        simp only [List.flatten_cons, List.mem_append, exists_or, ih htail, List.mem_cons, or_and_right]
        refine or_congr_left ?_
        rcases loaded_eq_ok hhead with ⟨hshown, rfl⟩ | ⟨text, properties, hshown, rfl⟩
        -- an item without a value is passed over
        · constructor
          · rintro ⟨properties, h⟩
            exact absurd h List.not_mem_nil
          · rintro ⟨rfl, text, h⟩
            rw [hshown] at h
            cases h
        · constructor
          · rintro ⟨properties', h⟩
            obtain ⟨rfl, -⟩ := Prod.mk.inj (List.mem_singleton.1 h)
            exact ⟨rfl, text, hshown⟩
          · rintro ⟨rfl, -⟩
            exact ⟨properties, List.mem_singleton_self _⟩

/-- **A unit is loaded** if it is listed and shows something. -/
theorem contains_unitsIn {m : SortedMap PoolProperties} (h : unitsIn r db = .ok m) :
    m.contains name = true ↔ ∃ text, unit? r db name = some (.ok (some text)) := by
  unfold unitsIn at h
  cases hfound : (r.children (Path.storageUnits db)).mapM fun name =>
      loaded name (Item.value r (Path.storageUnit db name)) with
  | error f => rw [hfound] at h; cases h
  | ok found =>
    rw [hfound] at h
    obtain rfl : SortedMap.ofList found.flatten = m := Except.ok.inj h
    rw [SortedMap.contains_ofList, mem_loaded_iff hfound, unit?]
    simp

/-- **What is loaded** depends only on what is stored of each unit. -/
theorem unitsIn_congr (h : ∀ name, unit? r' db name = unit? r db name) :
    unitsIn r' db = unitsIn r db := by
  have hlisted : ∀ name, name ∈ r'.children (Path.storageUnits db)
      ↔ name ∈ r.children (Path.storageUnits db) := fun name => by
    rw [← isSome_unit?, ← isSome_unit?, h name]
  have hloaded : ∀ names ⊆ r.children (Path.storageUnits db),
      (names.mapM fun name => loaded name (Item.value r' (Path.storageUnit db name)))
        = names.mapM fun name => loaded name (Item.value r (Path.storageUnit db name)) := by
    intro names hnames
    induction names with
    | nil => rfl
    | cons name names ih =>
      -- a listed unit is stored as before, so it is loaded as before
      rw [List.cons_subset] at hnames
      have hunit := h name
      rw [unit?, unit?, if_pos hnames.1, if_pos ((hlisted name).2 hnames.1)] at hunit
      rw [List.mapM_cons, List.mapM_cons, ih hnames.2, Option.some.inj hunit]
  unfold unitsIn
  rw [children_ext _ _ hlisted, hloaded _ (List.Subset.refl _)]

end Stored

end ClusterCatalog
