import Mathlib.Logic.Function.Basic
import ClusterCatalog.Proofs.Store.Item

/-!
# What readers of items see

Writers of versioned items make one call of the repository after the other, and every one of them
can be refused. A reader that comes in between must not notice: it sees the value of the last write
whose pointer was moved.

* `Item.Sound` — the invariant of the repository: the revisions of the written items are numbered,
  texts stand only at revisions and pointers, and a pointer names a revision that is there.
* `Item.shown` — the value that a reader gets.
* `Item.keeps_publish` — every call of a write keeps the invariant, and the only one that changes
  what is shown is the one that moves the pointer.
* `WriteRun.reads_lastMoved` — so after every call of every run, what is shown for any path is the
  value of the last write that moved its pointer.

Revisions that earlier writes have left behind do no harm. The number of a new revision is greater
than all that are there, so no revision is written over, and pruning stays below the one that the
pointer has just been moved to.
-/

namespace ClusterCatalog

/-- Whether a call writes the pointer of a path. -/
def StoreRequest.movesPointer (path : Path) : StoreRequest → Bool
  | .persist p _ => p == Path.activeVersion path
  | _ => false

namespace Item

open Plan Repository

/-! ### The invariant -/

/-- **The value that readers of an item get.** -/
def shown (r : Repository) (path : Path) : Option String :=
  (revisionOf? (text r (Path.activeVersion path))).bind fun n => r.query (Path.version path n)

/-- **A repository is sound** for the paths that are written. -/
structure Sound (paths : Path → Prop) (r : Repository) : Prop where
  /-- Texts stand at the pointers and revisions of the paths; other nodes are only passed through. -/
  texts : ∀ x, text r x ≠ "" →
    ∃ p, paths p ∧ (x = Path.activeVersion p ∨ ∃ n, x = Path.version p n)
  /-- The revisions are numbered. -/
  numbered : ∀ p, paths p → Numbered r p
  /-- A pointer names a revision that is there. -/
  pointed : ∀ p, text r (Path.activeVersion p) ≠ "" →
    ∃ n, n ≤ maxRevision ∧ text r (Path.activeVersion p) = toString n ∧ Present r p n

variable {paths : Path → Prop} {r : Repository} {p q : Path} {n : Nat} {v : String}

/-- What is shown depends on the pointer and on the revision that it names. -/
theorem shown_congr {r' : Repository}
    (hpointer : text r' (Path.activeVersion p) = text r (Path.activeVersion p))
    (hvalue : ∀ n, revisionOf? (text r (Path.activeVersion p)) = some n →
      r'.query (Path.version p n) = r.query (Path.version p n)) : shown r' p = shown r p := by
  unfold shown
  rw [hpointer]
  cases hn : revisionOf? (text r (Path.activeVersion p)) with
  | none => rfl
  | some n => exact hvalue n hn

/-- A pointer is the numeral of a revision that is there. -/
theorem Sound.of_revisionOf? (h : Sound paths r)
    (hn : revisionOf? (text r (Path.activeVersion p)) = some n) :
    text r (Path.activeVersion p) = toString n ∧ Present r p n := by
  obtain ⟨m, hm, htext, hpresent⟩ := h.pointed p (text_ne_empty_of_revisionOf? hn)
  rw [htext, revisionOf?_toString hm] at hn
  obtain rfl := Option.some.inj hn
  exact ⟨htext, hpresent⟩

/-- Only the written paths have a pointer. -/
theorem Sound.mem_of_pointer (h : Sound paths r) (htext : text r (Path.activeVersion p) ≠ "") :
    paths p := by
  obtain ⟨q, hq, heq | ⟨n, heq⟩⟩ := h.texts _ htext
  · exact Path.activeVersion_inj heq ▸ hq
  · exact absurd heq.symm Path.version_ne_activeVersion

/-! ### The empty repository -/

theorem Sound.empty (h : r.nodes = ∅) : Sound paths r where
  texts x hx := absurd (text_of_nodes_eq_empty h x) hx
  numbered _ _ := numbered_of_nodes_eq_empty h _
  pointed _ hp := absurd (text_of_nodes_eq_empty h _) hp

theorem shown_empty (h : r.nodes = ∅) (p : Path) : shown r p = none := by
  rw [shown, text_of_nodes_eq_empty h, revisionOf?_empty]
  rfl

/-! ### Writing a revision -/

/-- Writing a revision leaves it sound. -/
theorem Sound.persist_version (hsep : Path.Separate paths) (h : Sound paths r) (hp : paths p)
    (hn : n ≤ maxRevision) : Sound paths (r.persist (Path.version p n) v) where
  texts x hx := by
    by_cases heq : x = Path.version p n
    · exact ⟨p, hp, .inr ⟨n, heq⟩⟩
    · rw [text_persist heq] at hx
      exact h.texts x hx
  numbered q hq := (h.numbered q hq).persist_version hsep hp hq hn
  pointed q hq := by
    rw [text_persist (Ne.symm Path.version_ne_activeVersion)] at hq ⊢
    obtain ⟨m, hm, htext, hpresent⟩ := h.pointed q hq
    exact ⟨m, hm, htext, r.isSome_query_persist _ _ hpresent⟩

/-- A new revision is not shown. -/
theorem Sound.shown_persist_version (h : Sound paths r) (hfresh : ¬ Present r p n) (q : Path) :
    shown (r.persist (Path.version p n) v) q = shown r q := by
  refine shown_congr (text_persist (Ne.symm Path.version_ne_activeVersion)) fun m hm => ?_
  -- the revision that the pointer names was there before, so it is another one
  have hpresent := (h.of_revisionOf? hm).2
  refine r.query_persist_of_isSome _ _ (fun heq => hfresh ?_) hpresent
  obtain ⟨rfl, rfl⟩ := Path.version_inj heq
  exact hpresent

/-! ### Moving a pointer -/

/-- So does pointing to a revision that is there. -/
theorem Sound.persist_pointer (hsep : Path.Separate paths) (h : Sound paths r) (hp : paths p)
    (hn : n ≤ maxRevision) (hpresent : Present r p n) :
    Sound paths (r.persist (Path.activeVersion p) (toString n)) where
  texts x hx := by
    by_cases heq : x = Path.activeVersion p
    · exact ⟨p, hp, .inl heq⟩
    · rw [text_persist heq] at hx
      exact h.texts x hx
  numbered q hq := (h.numbered q hq).persist_pointer hsep hp hq
  pointed q hq := by
    -- the pointer that was written names a revision, and the others are as they were
    by_cases heq : q = p
    · subst heq
      exact ⟨n, hn, text_persist_self _, r.isSome_query_persist _ _ hpresent⟩
    · rw [text_persist fun h => heq (Path.activeVersion_inj h)] at hq ⊢
      obtain ⟨m, hm, htext, hold⟩ := h.pointed q hq
      exact ⟨m, hm, htext, r.isSome_query_persist _ _ hold⟩

/-- **A pointer that is moved to a revision shows its value**, and nothing else is shown
differently. -/
theorem Sound.shown_persist_pointer (h : Sound paths r) (hn : n ≤ maxRevision)
    (hvalue : r.query (Path.version p n) = some v) :
    shown (r.persist (Path.activeVersion p) (toString n)) = Function.update (shown r) p (some v) := by
  funext q
  by_cases heq : q = p
  · -- the path itself: the pointer now names the revision with the value
    subst heq
    rw [Function.update_self, shown, text_persist_self, revisionOf?_toString hn]
    refine (r.query_persist_of_isSome _ _ Path.version_ne_activeVersion ?_).trans hvalue
    rw [hvalue]
    rfl
  · -- another path: neither its pointer nor its revision is written
    rw [Function.update_of_ne heq]
    refine shown_congr (text_persist fun h => heq (Path.activeVersion_inj h)) fun m hm => ?_
    exact r.query_persist_of_isSome _ _ Path.version_ne_activeVersion (h.of_revisionOf? hm).2

/-! ### Removing a revision -/

/-- A revision that no pointer names covers no pointer and no revision that one names. -/
theorem Sound.not_covers_version (hsep : Path.Separate paths) (h : Sound paths r) (hp : paths p)
    (hother : text r (Path.activeVersion p) ≠ toString n)
    {m : Nat} (hm : revisionOf? (text r (Path.activeVersion q)) = some m) :
    ¬ (Path.version p n).Covers (Path.activeVersion q)
      ∧ ¬ (Path.version p n).Covers (Path.version q m) := by
  have hq : paths q := h.mem_of_pointer (text_ne_empty_of_revisionOf? hm)
  have hpv := (Path.isAbove_version p n).covers
  constructor
  -- what lies below a revision of `p` lies below `p`, so by separation `q` is `p` in both cases
  · intro hcovers
    obtain rfl := hsep.eq_of_covers hp hq (hpv.trans hcovers) (Path.isAbove_activeVersion q).covers
    exact (Path.apart_activeVersion_version p (toString n)).2 hcovers
  · intro hcovers
    obtain rfl := hsep.eq_of_covers hp hq (hpv.trans hcovers) (Path.isAbove_version q m).covers
    obtain rfl := Path.covers_version_iff.1 hcovers
    exact hother (h.of_revisionOf? hm).1

/-- Removing a revision that the pointer does not name leaves it sound. -/
theorem Sound.delete_version (hsep : Path.Separate paths) (h : Sound paths r) (hp : paths p)
    (hother : text r (Path.activeVersion p) ≠ toString n) :
    Sound paths (r.delete (Path.version p n)) where
  texts x hx := h.texts x (text_delete_version hx ▸ hx)
  numbered q hq := (h.numbered q hq).delete_version
  pointed q hq := by
    have hsame := text_delete_version hq
    rw [hsame] at hq ⊢
    obtain ⟨m, hm, htext, hpresent⟩ := h.pointed q hq
    -- the revision that a pointer names is not the removed one
    have hnumber : revisionOf? (text r (Path.activeVersion q)) = some m := by
      rw [htext, revisionOf?_toString hm]
    refine ⟨m, hm, htext, ?_⟩
    unfold Present
    rw [query_delete_version, if_neg (h.not_covers_version hsep hp hother hnumber).2]
    exact hpresent

/-- Removing a revision that is not the active one changes nothing that is shown. -/
theorem Sound.shown_delete_version (hsep : Path.Separate paths) (h : Sound paths r) (hp : paths p)
    (hother : text r (Path.activeVersion p) ≠ toString n) (q : Path) :
    shown (r.delete (Path.version p n)) q = shown r q := by
  cases hm : revisionOf? (text r (Path.activeVersion q)) with
  | none =>
    -- a pointer that names nothing is not there, and a removal does not bring it about
    have hempty : text r (Path.activeVersion q) = "" := by
      by_contra hne
      obtain ⟨k, hk, htext, -⟩ := h.pointed q hne
      rw [htext, revisionOf?_toString hk] at hm
      cases hm
    refine shown_congr ?_ fun m hm' => absurd (hm.symm.trans hm') (by simp)
    by_contra hne
    rw [hempty] at hne
    exact hne ((text_delete_version hne).trans hempty)
  | some m =>
    obtain ⟨hpointer, hversion⟩ := h.not_covers_version hsep hp hother hm
    refine shown_congr ?_ fun k hk => ?_
    · unfold text
      rw [query_delete_version, if_neg hpointer]
    · obtain rfl := Option.some.inj (hm.symm.trans hk)
      rw [query_delete_version, if_neg hversion]

/-! ### One write -/

/-- **What every call of a write does**, if it is answered: the repository stays sound, and what is
shown changes at the path of the write only, to its value, and only when the pointer is moved. -/
def Faithful (paths : Path → Prop) (path : Path) (value : String) (call : StoreRequest)
    (r : Repository) : Prop :=
  Sound paths (answer call r).2
    ∧ shown (answer call r).2
        = if call.movesPointer path then Function.update (shown r) path (some value) else shown r

section Publish

variable {path : Path} {value : String}

theorem Sound.faithful_read {call : StoreRequest} (h : Sound paths r)
    (hread : (answer call r).2 = r) (hmoves : call.movesPointer path = false) :
    Faithful paths path value call r := by
  unfold Faithful
  rw [hread, hmoves]
  exact ⟨h, rfl⟩

theorem movesPointer_version {n : Nat} :
    (StoreRequest.persist (Path.version path n) value).movesPointer path = false := by
  simp [StoreRequest.movesPointer, Path.version_ne_activeVersion]

/-- The calls of a commit: the pointer is moved to a revision that holds the value of the write, and
then others are removed. -/
theorem keeps_commitOne (hsep : Path.Separate paths) (hpath : paths path) {current next : Nat}
    (hsound : Sound paths r) (hnext : next ≤ maxRevision)
    (hvalue : r.query (Path.version path next) = some value) :
    (commitOne ⟨path, current, next⟩).Keeps (terms (Faithful paths path value) fun _ => True)
      (fun _ _ => True) r := by
  unfold commitOne
  split
  · rw [keeps_bind, Access.keeps_persist]
    have hpresent : Present r path next := by rw [Present, hvalue]; rfl
    have hmoved := hsound.persist_pointer hsep hpath hnext hpresent
    refine ⟨⟨hmoved, ?_⟩, ?_, fun _ _ => trivial⟩
    · rw [if_pos (by simp [StoreRequest.movesPointer, PendingSwitch.activeVersionPath])]
      exact hsound.shown_persist_pointer hnext hvalue
    -- while revisions are removed, the pointer stays where it is
    · refine keeps_prune (fun _ s => Sound paths s ∧ text s (Path.activeVersion path) = toString next)
        (fun _ => hmoved.faithful_read rfl rfl) (fun _ => hmoved.faithful_read rfl rfl)
        (fun _ _ => trivial) (fun _ _ _ _ => ⟨hmoved, text_persist_self _⟩) ?_ fun _ _ => trivial
      rintro n rest s hn ⟨hs, htext⟩
      have hother : text s (Path.activeVersion path) ≠ toString n := by
        rw [htext]
        exact fun heq => absurd (toString_inj heq) (Nat.ne_of_gt hn)
      have hdeleted := hs.delete_version hsep hpath hother
      refine ⟨⟨hdeleted, ?_⟩, ⟨hdeleted, ?_⟩, fun _ _ => ⟨fun _ => hs.faithful_read rfl rfl, hs, htext⟩⟩
      · exact funext (hs.shown_delete_version hsep hpath hother)
      · exact (text_delete_version_activeVersion path n).trans htext
  · trivial

/-- **Every call of a write is faithful**, whichever calls before it were refused. -/
theorem keeps_publish (hsep : Path.Separate paths) (hpath : paths path) (hsound : Sound paths r) :
    (publish path value).Keeps (terms (Faithful paths path value) fun _ => True)
      (fun _ _ => True) r := by
  unfold publish stage
  rw [keeps_bind, keeps_bind]
  refine keeps_revisions (hsound.faithful_read rfl rfl) (hsound.faithful_read rfl rfl)
    (fun _ _ => trivial) (fun _ _ => trivial) fun found l hfound hperm => ?_
  show (Plan.ofResult (nextRevision l) >>= _).Keeps _ _ _
  rw [keeps_bind, keeps_ofResult]
  cases hnext : nextRevision l with
  | error f => trivial
  | ok next =>
    obtain ⟨hle, hlt⟩ := lt_of_nextRevision hnext
    -- the number is greater than all that are there, whatever was left behind
    have hfresh : ¬ Present r path next := by
      intro hpresent
      have hmem := ((hsound.numbered path hpath).mem_iff hfound).2 hpresent
      exact absurd (hlt next (hperm.mem_iff.2 hmem)) (Nat.lt_irrefl next)
    have hstaged : Sound paths (r.persist (Path.version path next) value) :=
      hsound.persist_version hsep hpath hle
    have hvalue : (r.persist (Path.version path next) value).query (Path.version path next)
        = some value := r.query_persist_self _ _
    show (Access.persist (Path.version path next) value >>= _).Keeps _ _ _
    rw [keeps_bind, Access.keeps_persist]
    refine ⟨⟨hstaged, ?_⟩, ?_, fun _ _ => trivial⟩
    · rw [movesPointer_version]
      exact funext (hsound.shown_persist_version hfresh)
    · show (active path >>= _).Keeps _ _ _
      rw [keeps_bind]
      refine keeps_active (hstaged.faithful_read rfl rfl) (fun _ _ => trivial) ?_
      cases pointer (r.persist (Path.version path next) value) path with
      | error f => trivial
      | ok found =>
        cases found with
        | some current =>
          -- there is an older revision, so the pointer is moved by the commit
          show (commit [⟨path, current, next⟩] >>= _).Keeps _ _ _
          rw [keeps_bind, commit_singleton]
          exact (keeps_commitOne hsep hpath hstaged hle hvalue).mono fun r _ _ => by
            cases r <;> trivial
        | none =>
          -- the first revision becomes the active one at once
          show (Access.persist (Path.activeVersion path) (toString next) >>= _).Keeps _ _ _
          have hpresent : Present (r.persist (Path.version path next) value) path next := by
            rw [Present, hvalue]
            rfl
          rw [keeps_bind, Access.keeps_persist]
          refine ⟨⟨hstaged.persist_pointer hsep hpath hle hpresent, ?_⟩, ?_, fun _ _ => trivial⟩
          · rw [if_pos (by simp [StoreRequest.movesPointer])]
            exact hstaged.shown_persist_pointer hle hvalue
          · -- the new revision is the active one already, so there is nothing to commit
            show (commit [⟨path, next, next⟩] >>= _).Keeps _ _ _
            rw [keeps_bind, commit_singleton, commitOne, PendingSwitch.isRequired, bne_self_eq_false]
            trivial

end Publish

/-! ### Reading -/

theorem Sound.pointer_eq (h : Sound paths r) (p : Path) :
    pointer r p = .ok (revisionOf? (text r (Path.activeVersion p))) := by
  by_cases hempty : text r (Path.activeVersion p) = ""
  · rw [pointer_of_text_eq_empty hempty, hempty, revisionOf?_empty]
  · obtain ⟨n, hn, htext, -⟩ := h.pointed p hempty
    rw [pointer_of_text_eq htext hn, htext, revisionOf?_toString hn]

/-- **Readers of a sound repository get what is shown.** -/
theorem Sound.value_eq (h : Sound paths r) (p : Path) : value r p = .ok (shown r p) := by
  rw [value, h.pointer_eq]
  rfl

/-- A value that is shown stands at the revision that the pointer names. -/
theorem Sound.exists_of_shown (h : Sound paths r) (hshown : shown r p = some v) :
    ∃ n, pointer r p = .ok (some n) ∧ r.query (Path.version p n) = some v := by
  rw [h.pointer_eq]
  unfold shown at hshown
  cases hn : revisionOf? (text r (Path.activeVersion p)) with
  | none => rw [hn] at hshown; cases hshown
  | some n => rw [hn] at hshown; exact ⟨n, rfl, hshown⟩

end Item

/-! ### Runs -/

/-- **A move of a run**: a write is begun, or the write that is going on makes its next call, which
may be refused. -/
inductive WriteMove where
  | begin (path : Path) (value : String)
  | call (refusal : Option Error)

/-- A write that is going on, with what is left of it. -/
structure OpenWrite where
  path : Path
  value : String
  rest : Access PendingSwitch

/-- **A repository and its writer.** -/
structure WriteRun where
  repository : Repository
  /-- The write that is going on or was the last one. -/
  write : Option OpenWrite := none
  /-- The paths and values of the writes that have moved their pointer, the last one first. -/
  moved : List (Path × String) := []

namespace WriteRun

open Item

/-- The run after a move. A write that is not over when the next one is begun is given up. -/
def step (s : WriteRun) : WriteMove → WriteRun
  | .begin path value => { s with write := some ⟨path, value, publish path value⟩ }
  | .call refusal =>
    match s.write with
    | some ⟨path, value, .ask call rest⟩ =>
      { repository := (Repository.answerUnless refusal call s.repository).2
        write := some ⟨path, value, rest (Repository.answerUnless refusal call s.repository).1⟩
        moved :=
          if refusal.isNone && call.movesPointer path then (path, value) :: s.moved else s.moved }
    | _ => s

/-- The run after all moves. -/
def after (s : WriteRun) (moves : List WriteMove) : WriteRun := moves.foldl step s

/-- **The value of the last write of a path that has moved its pointer.** -/
def lastMoved? (s : WriteRun) (path : Path) : Option String := s.moved.lookup path

/-- The paths that are written in a run. -/
def paths (moves : List WriteMove) : List Path :=
  moves.filterMap fun
    | .begin path _ => some path
    | .call _ => none

/-- **The invariant of a run**: readers are shown what was written last, and what is left of the
write that is going on will keep it so. -/
structure Consistent (paths : Path → Prop) (s : WriteRun) : Prop where
  sound : Sound paths s.repository
  shown_eq : shown s.repository = s.lastMoved?
  faithful : ∀ w, s.write = some w → paths w.path ∧
    w.rest.Keeps (Repository.terms (Faithful paths w.path w.value) fun _ => True)
      (fun _ _ => True) s.repository

variable {paths : Path → Prop} {s : WriteRun}

/-- The move that is noted last is the last one of its path. -/
theorem lastMoved?_cons (path : Path) (value : String) :
    ({ s with moved := (path, value) :: s.moved } : WriteRun).lastMoved?
      = Function.update s.lastMoved? path (some value) := by
  funext p
  unfold lastMoved?
  by_cases hp : p = path
  · subst hp
    rw [Function.update_self, List.lookup_cons_self]
  · rw [Function.update_of_ne hp, List.lookup_cons, beq_false_of_ne hp]

/-- **One move** keeps the invariant. -/
theorem Consistent.step (hsep : Path.Separate paths) (h : s.Consistent paths) {move : WriteMove}
    (hmove : ∀ path value, move = .begin path value → paths path) :
    (s.step move).Consistent paths := by
  cases move with
  | begin path value =>
    refine ⟨h.sound, h.shown_eq, fun w hw => ?_⟩
    obtain rfl := Option.some.inj hw
    have hpath := hmove path value rfl
    exact ⟨hpath, keeps_publish hsep hpath h.sound⟩
  | call refusal =>
    simp only [WriteRun.step]
    split
    · rename_i path value call rest hwrite
      obtain ⟨hpath, howed, hrest⟩ := h.faithful _ hwrite
      have hkeeps := hrest _ _ ⟨refusal, fun _ _ => trivial, rfl⟩
      cases refusal with
      | none =>
        -- the call is answered, and what it shows is what the record of moved pointers says
        refine ⟨howed.1, howed.2.trans ?_, fun w hw => ?_⟩
        · rw [h.shown_eq]
          cases call.movesPointer path with
          | true => exact (lastMoved?_cons path value).symm
          | false => rfl
        · obtain rfl := Option.some.inj hw
          exact ⟨hpath, hkeeps⟩
      | some e =>
        -- the call is refused: the repository is the same, and the write goes on with the error
        refine ⟨h.sound, h.shown_eq, fun w hw => ?_⟩
        obtain rfl := Option.some.inj hw
        exact ⟨hpath, hkeeps⟩
    -- no write is going on, or it is over
    · exact h

/-- **All moves** keep the invariant. -/
theorem Consistent.after (hsep : Path.Separate paths) {moves : List WriteMove}
    (h : s.Consistent paths)
    (hmoves : ∀ path value, .begin path value ∈ moves → paths path) :
    (s.after moves).Consistent paths := by
  induction moves generalizing s with
  | nil => exact h
  | cons move moves ih =>
    refine ih (h.step hsep ?_) fun path value hmem => hmoves path value (List.mem_cons_of_mem _ hmem)
    rintro path value rfl
    exact hmoves path value List.mem_cons_self

/-- **Readers see the last write whose pointer was moved.** Whatever paths are written in a run, as
long as none is above another one, and whichever calls are refused: after every move, for every
path, the active revision is there and holds the value of the last write that has moved the
pointer of the path; and as long as there was none, readers get none. -/
theorem reads_lastMoved {r : Repository} (hempty : r.nodes = ∅) (moves : List WriteMove)
    (hsep : ∀ p ∈ WriteRun.paths moves, ∀ q ∈ WriteRun.paths moves, ¬ p.IsAbove q) (path : Path) :
    let s := ({ repository := r } : WriteRun).after moves
    (activeValue path).run Repository.answer s.repository
        = (.ok (s.lastMoved? path), s.repository)
      ∧ ∀ value, s.lastMoved? path = some value →
        ∃ n, (active path).run Repository.answer s.repository = (.ok (some n), s.repository)
          ∧ (valueAt path n).run Repository.answer s.repository
            = (.ok (some value), s.repository) := by
  intro s
  -- nothing is there and nothing was moved, so the two agree at the start
  have hstart : ({ repository := r } : WriteRun).Consistent (· ∈ WriteRun.paths moves) :=
    ⟨.empty hempty, funext (shown_empty hempty), fun w hw => by cases hw⟩
  have hs : s.Consistent (· ∈ WriteRun.paths moves) := by
    refine hstart.after (fun p q hp hq => hsep p hp q hq) fun path value hmem => ?_
    exact List.mem_filterMap.2 ⟨_, hmem, rfl⟩
  refine ⟨?_, fun value hvalue => ?_⟩
  · rw [(reads_activeValue _).run, hs.sound.value_eq, hs.shown_eq]
  · rw [← hs.shown_eq] at hvalue
    obtain ⟨n, hpointer, hrevision⟩ := hs.sound.exists_of_shown hvalue
    refine ⟨n, by rw [(reads_active _).run, hpointer], ?_⟩
    show (Except.ok (s.repository.query (Path.version path n)), s.repository) = _
    rw [hrevision]

/-- A write whose pointer was refused leaves a revision behind and is not seen; the next write is
seen as soon as its pointer is moved. -/
theorem reads_lastMoved_over_refusal :
    let calls := List.replicate 4 (WriteMove.call none)
    let moves := [.begin "/a" "x"] ++ calls ++ [.begin "/a" "y"] ++ List.replicate 3 (.call none)
      ++ [.call (some (.repository "down")), .begin "/a" "z"] ++ calls
    let s := ({ repository := .memory .empty } : WriteRun).after moves
    (∀ p ∈ WriteRun.paths moves, ∀ q ∈ WriteRun.paths moves, ¬ p.IsAbove q)
      ∧ s.lastMoved? "/a" = some "z"
      ∧ (activeValue "/a").run Repository.answer s.repository
        = (.ok (s.lastMoved? "/a"), s.repository) := by
  intro calls moves s
  refine ⟨by decide, by decide +kernel, ?_⟩
  exact (reads_lastMoved (r := .memory .empty) rfl moves (by decide) "/a").1

end WriteRun

end ClusterCatalog
