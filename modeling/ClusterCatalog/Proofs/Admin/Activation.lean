import ClusterCatalog.Admin.Tool
import ClusterCatalog.Proofs.Store.Pointer

/-!
# Activating a revision by hand

The tool sets the pointer of an item to a revision that is there, whatever state interrupted writes have
left the item in. It makes up a switch from the revision that is active to the one that is asked for,
and commits it. What is promised afterwards is listed in `Command.Activated`: the pointer names the
revision and its text is what the item shows, no revision from it on is lost, and nothing else is
changed.

A switch is committed only if its two revisions differ. The tool takes the revision that is asked for in
place of one that is missing, so for an item without a pointer the two are the same, and the pointer stays
missing. That it reports success then is the one case in which the promise is not kept
(`Command.activated_iff`).

* `Command.Activated.of_moved` — a pointer that has been moved (`Item.Moved`) keeps the promise.
* `Command.keeps_activate` — the cases of an activation.
-/

namespace ClusterCatalog

open Plan Repository

namespace Command

variable {path : Path} {revision : Nat} {r r' : Repository} {v : String}

/-- **A revision has been activated.**

* The pointer names it, and the item shows the text that it had.
* Revisions that are not lower are kept, also those whose numerals begin with zeros.
* Nothing else is changed, missing nodes above the pointer aside. -/
structure Activated (path : Path) (revision : Nat) (r r' : Repository) : Prop where
  active : (Item.active path).run answer r' = (.ok (some revision), r')
  value : ∃ v, r.query (Path.version path revision) = some v
    ∧ (Item.activeValue path).run answer r' = (.ok (some v), r')
  revisions : ∀ name n, revisionOf? name = some n → revision ≤ n →
    r'.query (Path.child (Path.versions path) name) = r.query (Path.child (Path.versions path) name)
  elsewhere : ∀ q, ¬ (Path.activeVersion path).Covers q → ¬ (Path.versions path).Covers q →
    LeftAlone (· = Path.activeVersion path) r r' q

/-- A pointer that names a revision which is there as before shows the text of the revision. -/
theorem Activated.of_pointer (hrevision : revision ≤ maxRevision)
    (hvalue : r.query (Path.version path revision) = some v)
    (hpointer : Item.pointer r' path = .ok (some revision))
    (hrevisions : ∀ name n, revisionOf? name = some n → revision ≤ n →
      r'.query (Path.child (Path.versions path) name) = r.query (Path.child (Path.versions path) name))
    (helsewhere : ∀ q, ¬ (Path.activeVersion path).Covers q → ¬ (Path.versions path).Covers q →
      LeftAlone (· = Path.activeVersion path) r r' q) : Activated path revision r r' := by
  have hshown : Item.value r' path = .ok (some v) := by
    -- the revision itself is not older than itself, so it is kept
    have hkept : r'.query (Path.version path revision) = some v :=
      (hrevisions _ _ (revisionOf?_toString hrevision) le_rfl).trans hvalue
    rw [Item.value, hpointer]
    exact congrArg Except.ok hkept
  refine ⟨?_, ⟨v, hvalue, ?_⟩, hrevisions, helsewhere⟩
  · rw [← hpointer]
    exact (Item.reads_active path).run
  · rw [← hshown]
    exact (Item.reads_activeValue path).run

/-- **A pointer that has been moved** to a revision that was there activates it. -/
theorem Activated.of_moved {current : Nat} (hrevision : revision ≤ maxRevision)
    (hvalue : r.query (Path.version path revision) = some v)
    (h : Item.Moved ⟨path, current, revision⟩ r r') : Activated path revision r r' := by
  refine .of_pointer hrevision hvalue (Item.pointer_of_text_eq h.pointer hrevision)
    (fun name n => h.query_revision hrevision) fun q hpointer hversions => ?_
  have hne : q ≠ Path.activeVersion path := fun heq => hpointer (heq ▸ .refl _)
  -- what is gone was below `versions`
  refine (h.others q hne).resolve_right ?_
  rintro ⟨⟨n, -, hcovers⟩, -⟩
  exact hversions ((Path.isAbove_child _ _).covers.trans hcovers)

/-- **The cases of an activation** that ends well, whichever calls are refused: without a pointer nothing is
changed, otherwise the revision is active. -/
theorem keeps_activate (hrevision : revision ≤ maxRevision) (s : Repository) :
    (run (.activate path revision)).Keeps unsure (fun result s' => ∀ lines, result = .ok (.ok lines) →
      ∃ found, Item.pointer s path = .ok found
        ∧ lines = [path ++ ": " ++ toString (found.getD revision) ++ " -> " ++ toString revision]
        ∧ (found = none → s' = s) ∧ (found ≠ none → Activated path revision s s')) s := by
  show (Access.query (Path.version path revision) >>= _).Keeps _ _ _
  rw [keeps_bind, Access.keeps_query]
  refine ⟨trivial, ?_, fun _ _ _ h => by cases h⟩
  cases hvalue : s.query (Path.version path revision) with
  | none => exact fun _ h => by cases h
  | some v =>
    show (Item.active path >>= _).Keeps _ _ _
    rw [keeps_bind]
    refine Item.keeps_active trivial (fun _ _ _ h => by cases h) ?_
    cases hpointer : Item.pointer s path with
    | error f => exact fun _ h => by cases h
    | ok found =>
      show (Item.commit [⟨path, found.getD revision, revision⟩] >>= _).Keeps _ _ _
      rw [Item.commit_singleton, keeps_bind]
      refine Item.keeps_commitOne_cases (fun _ _ _ h => by cases h) (fun hidle => ?_)
        fun s' hrequired hmoved => ?_
      · intro lines hlines
        refine ⟨found, rfl, (Except.ok.inj (Except.ok.inj hlines)).symm, fun _ => rfl, fun hfound => ?_⟩
        obtain ⟨current, rfl⟩ := Option.ne_none_iff_exists'.1 hfound
        -- the pointer names the revision already
        have hcurrent : current = revision := by simpa [PendingSwitch.isRequired] using hidle
        rw [hcurrent] at hpointer
        exact .of_pointer hrevision hvalue hpointer (fun _ _ _ _ => rfl) fun _ _ _ => .inl rfl
      · intro lines hlines
        have hfound : found ≠ none := by
          rintro rfl
          simp [PendingSwitch.isRequired] at hrequired
        exact ⟨found, rfl, (Except.ok.inj (Except.ok.inj hlines)).symm,
          fun hnone => absurd hnone hfound, fun _ => .of_moved hrevision hvalue hmoved⟩

/-- **Activating a revision does what it reports** just if the item had a pointer; without one it changes
nothing. This is so for every number in range, in every state of the repository, whichever of its calls are
refused. -/
theorem activated_iff (hrevision : revision ≤ maxRevision) (refusals : List (Option Error))
    {lines : List String}
    (hok : ((run (.activate path revision)).run answerInTurn (r, refusals)).1 = .ok (.ok lines)) :
    ∃ found, (Item.active path).run answer r = (.ok found, r)
      ∧ lines = [path ++ ": " ++ toString (found.getD revision) ++ " -> " ++ toString revision]
      ∧ (Activated path revision r ((run (.activate path revision)).run answerInTurn (r, refusals)).2.1
        ↔ found ≠ none)
      ∧ (found = none →
        ((run (.activate path revision)).run answerInTurn (r, refusals)).2.1 = r) := by
  obtain ⟨found, hpointer, hlines, hunchanged, hactivated⟩ :=
    Access.run_of_unsure (keeps_activate hrevision r) refusals lines hok
  have hactive : (Item.active path).run answer r = (.ok found, r) := by
    rw [← hpointer]
    exact (Item.reads_active path).run
  refine ⟨found, hactive, hlines, ⟨fun h hnone => ?_, hactivated⟩, hunchanged⟩
  -- what is found afterwards is what was found before
  have hafter := h.active
  rw [hunchanged hnone, hactive, hnone] at hafter
  cases hafter

/-- The pointer of an item names a newer revision, which is not there, and the oldest one cannot be
removed. -/
theorem activated_older :
    let r := (((Repository.memory .empty).persist "/x/versions/0" "a").persist "/x/versions/1" "b").persist
      "/x/active_version" "2"
    let refusals := [none, none, none, none, some (Error.repository "locked")]
    let ended := (run (.activate "/x" 1)).run answerInTurn (r, refusals)
    ended.1 = .ok (.ok ["/x: 2 -> 1"]) ∧ Activated "/x" 1 r ended.2.1 := by
  intro r refusals ended
  have hok : ended.1 = .ok (.ok ["/x: 2 -> 1"]) := by decide +kernel
  refine ⟨hok, ?_⟩
  obtain ⟨found, hfound, -, hiff, -⟩ := activated_iff (by decide) refusals hok
  refine hiff.2 fun hnone => ?_
  rw [hnone] at hfound
  exact absurd (congrArg Prod.fst hfound) (by decide +kernel)

/-- A revision whose write was interrupted before its pointer was written is reported to be active, and is
not. -/
theorem not_always_activated :
    let r := (Repository.memory .empty).persist "/x/versions/0" "a"
    let ended := (run (.activate "/x" 0)).run answerInTurn (r, [])
    ended.1 = .ok (.ok ["/x: 0 -> 0"]) ∧ ¬ Activated "/x" 0 r ended.2.1 := by
  intro r ended
  refine ⟨by decide +kernel, fun h => ?_⟩
  exact absurd (congrArg Prod.fst h.active) (by decide +kernel)

end Command

end ClusterCatalog
