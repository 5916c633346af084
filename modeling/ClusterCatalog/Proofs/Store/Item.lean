import ClusterCatalog.Proofs.Store.Access
import ClusterCatalog.Proofs.Store.Nodes

/-!
# What the operations on an item read and write

The readers of an item only look: `Item.pointer`, `Item.value` and `Item.numbers` are what
they find, as functions of the repository, and the laws `Item.keeps_active`,
`Item.keeps_activeValue` and `Item.keeps_revisions` say that they find it. `Item.keeps_stage_cases` is the
law of writing a revision, and `Item.keeps_prune` that of removing what is below one.
-/

namespace ClusterCatalog

namespace Item

open Plan Repository

variable {owed : StoreRequest → Repository → Prop} {reasons : Error → Prop} {s : Repository}

/-! ### Readers -/

/-- The number that a text found at or below `path` names. -/
def number (path : Path) (text : String) : Except Failure Nat :=
  (revisionOf? text).elim (.error (.error (.invalidVersion path text))) .ok

/-- The numbers that the names below the revisions of an item stand for. -/
def numbers (r : Repository) (path : Path) : Except Failure (List Nat) :=
  (r.children (Path.versions path)).mapM (number (Path.versions path))

/-- **The pointer of an item.** -/
def pointer (r : Repository) (path : Path) : Except Failure (Option Nat) :=
  match r.query (Path.activeVersion path) with
  | none => .ok none
  | some text =>
    if text = "" then .ok none else (number (Path.activeVersion path) text).map some

/-- **The text that an item shows.** -/
def value (r : Repository) (path : Path) : Except Failure (Option String) :=
  (pointer r path).map fun found => found.bind fun n => r.query (Path.version path n)

theorem parseRevision_eq (path : Path) (text : String) :
    parseRevision path text = .ofResult (number path text) := by
  unfold parseRevision number
  cases revisionOf? text <;> rfl

/-- Reading the names of revisions as numbers asks nothing of the repository. -/
theorem mapM_parseRevision (path : Path) (names : List String) :
    names.mapM (parseRevision path) = .ofResult (names.mapM (number path)) := by
  induction names with
  | nil => rfl
  | cons text names ih =>
    rw [List.mapM_cons, List.mapM_cons, ih, parseRevision_eq]
    cases number path text with
    | error f => rfl
    | ok n => cases names.mapM (number path) <;> rfl

/-- **A listing is read** as the numbers of its names, or fails on the first name that is none. -/
theorem mapM_number (path : Path) (names : List String) :
    names.mapM (number path)
      = match names.find? fun text => (revisionOf? text).isNone with
        | none => .ok (names.filterMap revisionOf?)
        | some text => .error (.error (.invalidVersion path text)) := by
  induction names with
  | nil => rfl
  | cons text names ih =>
    rw [List.mapM_cons, ih, number]
    -- the first name that is no number decides, so the head comes before the tail
    cases hnumber : revisionOf? text with
    | none => rw [List.find?_cons_of_pos (by simp [hnumber])]; rfl
    | some n =>
      rw [List.find?_cons_of_neg (by simp [hnumber]), List.filterMap_cons_some hnumber]
      cases names.find? fun text => (revisionOf? text).isNone <;> rfl

/-- A name that stands for no number is the only thing that can be wrong with a listing. -/
theorem eq_of_numbers_eq_error {r : Repository} {path : Path} {f : Failure}
    (h : numbers r path = .error f) :
    ∃ text, f = .error (.invalidVersion (Path.versions path) text) := by
  rw [numbers, mapM_number] at h
  split at h
  · cases h
  · rename_i text _
    exact ⟨text, (Except.error.inj h).symm⟩

/-- The revisions of an item can be listed if each name below them stands for a number. -/
theorem numbers_eq_ok_iff {r : Repository} {path : Path} {found : List Nat} :
    numbers r path = .ok found
      ↔ (∀ name ∈ r.children (Path.versions path), (revisionOf? name).isSome)
        ∧ found = (r.children (Path.versions path)).filterMap revisionOf? := by
  rw [numbers, mapM_number]
  cases hfind : (r.children (Path.versions path)).find? fun text => (revisionOf? text).isNone with
  | none =>
    rw [List.find?_eq_none] at hfind
    have hall : ∀ name ∈ r.children (Path.versions path), (revisionOf? name).isSome := fun name hname => by
      simpa [Option.isSome_iff_ne_none] using hfind name hname
    rw [and_iff_right hall]
    exact ⟨fun h => (Except.ok.inj h).symm, fun h => congrArg Except.ok h.symm⟩
  | some text =>
    -- one name that is no number makes the whole listing fail
    refine iff_of_false (fun h => by cases h) fun h => ?_
    have hsome := h.1 text (List.mem_of_find?_eq_some hfind)
    have hnone := List.find?_some hfind
    rw [Option.isNone_iff_eq_none] at hnone
    rw [hnone] at hsome
    cases hsome

theorem eq_of_numbers_eq_ok {r : Repository} {path : Path} {found : List Nat}
    (h : numbers r path = .ok found) :
    found = (r.children (Path.versions path)).filterMap revisionOf? := (numbers_eq_ok_iff.1 h).2

/-- To ask for the active revision is to ask for the pointer. -/
theorem keeps_active {post : Except Failure (Option Nat) → Repository → Prop} {path : Path}
    (howed : owed (.query (Path.activeVersion path)) s)
    (hrefused : ∀ e, reasons e → post (.error (.error e)) s) (hpost : post (pointer s path) s) :
    (active path).Keeps (terms owed reasons) post s := by
  unfold active
  rw [keeps_bind, Access.keeps_query]
  refine ⟨howed, ?_, hrefused⟩
  unfold pointer at hpost
  show (match s.query (Path.activeVersion path) with
    | none => _
    | some text => _ : Access (Option Nat)).Keeps _ _ _
  cases hquery : s.query (Path.activeVersion path) with
  | none =>
    rw [hquery] at hpost
    exact hpost
  | some text =>
    rw [hquery] at hpost
    by_cases htext : text = ""
    -- a pointer node that was only passed through names nothing
    · simp only [htext, if_true] at hpost ⊢
      exact hpost
    · simp only [if_neg htext, parseRevision_eq] at hpost ⊢
      cases hnumber : number (Path.activeVersion path) text with
      | error f => rw [hnumber] at hpost; exact hpost
      | ok n => rw [hnumber] at hpost; exact hpost

/-- To ask for the active value is to ask for the pointer, and then for the revision that it names. -/
theorem keeps_activeValue {post : Except Failure (Option String) → Repository → Prop} {path : Path}
    (howed : ∀ q, owed (.query q) s) (hrefused : ∀ e, reasons e → post (.error (.error e)) s)
    (hpost : post (value s path) s) : (activeValue path).Keeps (terms owed reasons) post s := by
  unfold activeValue
  rw [keeps_bind]
  refine keeps_active (howed _) hrefused ?_
  unfold value at hpost
  cases hpointer : pointer s path with
  | error f => rw [hpointer] at hpost; exact hpost
  | ok found =>
    rw [hpointer] at hpost
    -- without a pointer no revision is asked for
    cases found with
    | none => exact hpost
    | some n => exact Access.keeps_query.2 ⟨howed _, hpost, hrefused⟩

/-- A pointer is read off its text. -/
theorem pointer_eq (r : Repository) (path : Path) :
    pointer r path
      = if text r (Path.activeVersion path) = "" then .ok none
        else (number (Path.activeVersion path) (text r (Path.activeVersion path))).map some := by
  unfold pointer text
  cases r.query (Path.activeVersion path) <;> rfl

/-- A pointer without a text is none. -/
theorem pointer_of_text_eq_empty {r : Repository} {path : Path}
    (h : text r (Path.activeVersion path) = "") : pointer r path = .ok none := by
  rw [pointer_eq, if_pos h]

/-- A pointer with a numeral names its number. -/
theorem pointer_of_text_eq {r : Repository} {path : Path} {n : Nat}
    (h : text r (Path.activeVersion path) = toString n) (hn : n ≤ maxRevision) :
    pointer r path = .ok (some n) := by
  rw [pointer_eq, h, if_neg (isName_toString n).1, number, revisionOf?_toString hn]
  rfl

theorem reads_active (path : Path) : Access.Reads s (active path) (pointer s path) :=
  fun _ _ => keeps_active trivial

theorem reads_activeValue (path : Path) : Access.Reads s (activeValue path) (value s path) :=
  fun _ _ => keeps_activeValue fun _ => trivial

/-- **The revisions of an item** are the numbers below it, in some order. -/
theorem keeps_revisions {post : Except Failure (List Nat) → Repository → Prop} {path : Path}
    (howed : owed (.children (Path.versions path)) s)
    (hwarn : owed (.warn (.manyVersions path)) s)
    (hrefused : ∀ e, reasons e → post (.error (.error e)) s)
    (herror : ∀ f, numbers s path = .error f → post (.error f) s)
    (hok : ∀ found l : List Nat, numbers s path = .ok found → l.Perm found → post (.ok l) s) :
    (revisions path).Keeps (terms owed reasons) post s := by
  unfold revisions
  rw [keeps_bind, Access.keeps_children]
  refine ⟨howed, ?_, hrefused⟩
  show ((s.children (Path.versions path)).mapM (parseRevision (Path.versions path))
    >>= _).Keeps _ _ _
  rw [mapM_parseRevision, keeps_bind, keeps_ofResult]
  change Then _ _ _ (numbers s path) s
  cases hnumbers : numbers s path with
  | error f => exact herror f hnumbers
  | ok found =>
    show (if found.length > 2 then _ else _ : Access (List Nat)).Keeps _ _ _
    split
    -- many revisions are reported, and sorted for the report
    · rw [keeps_bind, Access.keeps_warn]
      exact ⟨hwarn, hok found _ hnumbers (List.mergeSort_perm _ _)⟩
    · exact hok found found hnumbers (.refl _)

/-! ### Numbered revisions -/

/-- A listing of numbered revisions can be read. -/
theorem Numbered.exists_numbers {r : Repository} {path : Path} (h : Numbered r path) :
    ∃ found, numbers r path = .ok found := by
  refine ⟨_, numbers_eq_ok_iff.2 ⟨fun name hname => ?_, rfl⟩⟩
  obtain ⟨hname, hsome⟩ := mem_children_versions_iff.1 hname
  obtain ⟨n, hn, rfl⟩ := h name hname hsome
  rw [revisionOf?_toString hn]
  rfl

/-- **What is read are the revisions that are there.** -/
theorem Numbered.mem_iff {r : Repository} {path : Path} (h : Numbered r path) {found : List Nat}
    (hfound : numbers r path = .ok found) {n : Nat} : n ∈ found ↔ Present r path n := by
  rw [eq_of_numbers_eq_ok hfound, List.mem_filterMap]
  constructor
  · rintro ⟨name, hname, hn⟩
    obtain ⟨hname, hsome⟩ := mem_children_versions_iff.1 hname
    obtain ⟨m, hm, rfl⟩ := h name hname hsome
    rw [revisionOf?_toString hm] at hn
    exact Option.some.inj hn ▸ hsome
  · intro hn
    exact ⟨toString n, mem_children_versions_iff.2 ⟨isName_toString n, hn⟩,
      revisionOf?_toString (h.le hn)⟩

/-! ### Committing -/

/-- A batch of one switch. -/
theorem commit_singleton (switch : PendingSwitch) : commit [switch] = commitOne switch :=
  forM_singleton commitOne switch

/-- A batch of switches is the first one and then the others. -/
theorem commit_cons (switch : PendingSwitch) (switches : List PendingSwitch) :
    commit (switch :: switches) = (commitOne switch >>= fun _ => commit switches) := rfl

/-! ### Numbering -/

/-- A new number is greater than those that are there, and in range. -/
theorem lt_of_nextRevision {found : List Nat} {next : Nat} (h : nextRevision found = .ok next) :
    next ≤ maxRevision ∧ ∀ n ∈ found, n < next := by
  unfold nextRevision at h
  -- without revisions the first number is given, else the one after the greatest, if there is one
  split at h
  · rename_i hmax
    cases h
    rw [List.max?_eq_none_iff] at hmax
    subst hmax
    exact ⟨Nat.zero_le _, fun n hn => absurd hn List.not_mem_nil⟩
  · rename_i latest hmax
    split at h
    · rename_i hlt
      cases h
      exact ⟨hlt, fun n hn => Nat.lt_succ_of_le ((List.max?_eq_some_iff.1 hmax).2 n hn)⟩
    · cases h

/-- Numbers without a gap at the end are continued. -/
theorem nextRevision_eq {found : List Nat} {written next : Nat} (hlt : ∀ n ∈ found, n < written)
    (hlast : written ≠ 0 → written - 1 ∈ found) (h : nextRevision found = .ok next) :
    next = written := by
  have hnext := lt_of_nextRevision h
  -- the last number written is among the revisions, so the next one is above it
  have hge : written ≤ next := by
    by_cases hzero : written = 0
    · exact hzero ▸ Nat.zero_le _
    · have := hnext.2 _ (hlast hzero)
      omega
  refine Nat.le_antisymm ?_ hge
  unfold nextRevision at h
  split at h
  · cases h
    exact Nat.zero_le _
  · rename_i latest hmax
    split at h
    · cases h
      exact hlt latest (List.max?_eq_some_iff.1 hmax).1
    · cases h

/-- The order of the revisions does not matter. -/
theorem nextRevision_perm {l found : List Nat} (h : l.Perm found) :
    nextRevision l = nextRevision found := by
  have hmax : l.max? = found.max? := by
    cases hfound : found.max? with
    | none =>
      rw [List.max?_eq_none_iff] at hfound ⊢
      subst hfound
      exact List.perm_nil.1 h
    | some latest =>
      rw [List.max?_eq_some_iff] at hfound ⊢
      exact ⟨h.mem_iff.2 hfound.1, fun n hn => hfound.2 n (h.mem_iff.1 hn)⟩
  rw [nextRevision, nextRevision, hmax]

/-! ### Staging -/

/-- Writing a revision does not move the pointer. -/
theorem pointer_persist_version {r : Repository} {path : Path} (n : Nat) (v : String) :
    pointer (r.persist (Path.version path n) v) path = pointer r path := by
  rw [pointer_eq, text_persist Path.version_ne_activeVersion.symm, ← pointer_eq]

/-- **Staging** writes nothing if the revisions cannot be listed, or have no number after them. Else it
writes a revision, and then the pointer if there is none. Each of its calls may be refused. -/
theorem keeps_stage_cases {post : Except Failure PendingSwitch → Repository → Prop} {path : Path}
    {v : String}
    (hrefused : ∀ e, reasons e → post (.error (.error e)) s
      ∧ ∀ next, post (.error (.error e)) (s.persist (Path.version path next) v))
    (hunlisted : ∀ f, numbers s path = .error f → post (.error f) s)
    (hfull : ∀ found f, numbers s path = .ok found → nextRevision found = .error f → post (.error f) s)
    (hstaged : ∀ found next, numbers s path = .ok found → nextRevision found = .ok next →
      match pointer s path with
      | .error f => post (.error f) (s.persist (Path.version path next) v)
      | .ok (some current) => post (.ok ⟨path, current, next⟩) (s.persist (Path.version path next) v)
      | .ok none => post (.ok ⟨path, next, next⟩)
        ((s.persist (Path.version path next) v).persist (Path.activeVersion path) (toString next))) :
    (stage path v).Keeps (terms (fun _ _ => True) reasons) post s := by
  unfold stage
  rw [keeps_bind]
  refine keeps_revisions trivial trivial (fun e he => (hrefused e he).1) hunlisted
    fun found l hfound hperm => ?_
  show (Plan.ofResult (nextRevision l) >>= _).Keeps _ _ _
  rw [keeps_bind, keeps_ofResult, nextRevision_perm hperm]
  cases hnext : nextRevision found with
  | error f => exact hfull found f hfound hnext
  | ok next =>
    have hcases := hstaged found next hfound hnext
    show (Access.persist (Path.version path next) v >>= _).Keeps _ _ _
    rw [keeps_bind, Access.keeps_persist]
    refine ⟨trivial, ?_, fun e he => (hrefused e he).1⟩
    show (active path >>= _).Keeps _ _ _
    rw [keeps_bind]
    -- the pointer is read after the revision was written, which has not moved it
    refine keeps_active trivial (fun e he => (hrefused e he).2 next) ?_
    rw [pointer_persist_version]
    cases hpointer : pointer s path with
    | error f =>
      rw [hpointer] at hcases
      exact hcases
    | ok current =>
      rw [hpointer] at hcases
      cases current with
      | some current => exact hcases
      | none =>
        show (Access.persist (Path.activeVersion path) (toString next) >>= _).Keeps _ _ _
        rw [keeps_bind, Access.keeps_persist]
        exact ⟨trivial, hcases, fun e he => (hrefused e he).2 next⟩

/-! ### Pruning -/

/-- **Pruning** keeps an invariant that speaks of the revisions that are still to be removed. It
always ends well: what cannot be listed or removed is reported. -/
theorem keeps_prune {post : Except Failure Unit → Repository → Prop} {switch : PendingSwitch}
    (inv : List Nat → Repository → Prop)
    (howed : ∀ path, owed (.children path) s) (hwarn : ∀ w, owed (.warn w) s)
    (hunlisted : ∀ e, reasons e ∨ numbers s switch.path = .error (.error e) → post (.ok ()) s)
    (hlisted : ∀ found l : List Nat, numbers s switch.path = .ok found → l.Perm found →
      inv (l.filter (· < switch.next)) s)
    (hdelete : ∀ n rest s, n < switch.next → inv (n :: rest) s →
      owed (.delete (Path.version switch.path n)) s
        ∧ inv rest (s.delete (Path.version switch.path n))
        ∧ ∀ e, reasons e → (∀ w, owed (.warn w) s) ∧ inv rest s)
    (hpost : ∀ s, inv [] s → post (.ok ()) s) :
    (prune switch).Keeps (terms owed reasons) post s := by
  have hreported : ∀ e, reasons e ∨ numbers s switch.path = .error (.error e) →
      (Access.warn (.pruneListFailed switch.path e)).Keeps (terms owed reasons) post s :=
    fun e he => Access.keeps_warn.2 ⟨hwarn _, hunlisted e he⟩
  unfold prune
  rw [keeps_bind, keeps_attempt]
  refine keeps_revisions (howed _) (hwarn _) (fun e he => hreported e (.inl he)) ?_ ?_
  · -- only an error can come of reading a listing, so it is caught
    intro f hf
    obtain ⟨text, rfl⟩ := eq_of_numbers_eq_error hf
    exact hreported _ (.inr hf)
  · intro found l hfound hl
    refine Keeps.forM (fun rest s => inv rest s ∧ ∀ n ∈ rest, n < switch.next)
      ⟨hlisted found l hfound hl, fun n hn => by simpa using (List.mem_filter.1 hn).2⟩ ?_
      fun s hs => hpost s hs.1
    -- a removal that is refused is reported, and the loop goes on with the next number
    rintro n rest s ⟨hinv, hrest⟩
    obtain ⟨howed, hdeleted, hrefused⟩ := hdelete n rest s (hrest n List.mem_cons_self) hinv
    have hrest' : ∀ m ∈ rest, m < switch.next := fun m hm => hrest m (List.mem_cons_of_mem _ hm)
    rw [keeps_bind, keeps_attempt, PendingSwitch.versionPath, Access.keeps_delete]
    refine ⟨howed, ⟨hdeleted, hrest'⟩, fun e he => ?_⟩
    obtain ⟨hwarn, hinv⟩ := hrefused e he
    exact Access.keeps_warn.2 ⟨hwarn _, hinv, hrest'⟩

end Item

end ClusterCatalog
