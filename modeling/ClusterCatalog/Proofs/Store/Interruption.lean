import ClusterCatalog.Proofs.Store.Pointer

/-!
# Batches that are interrupted

A batch of switches is committed one switch after the other, and any call of the repository may be refused
on the way. A pointer that cannot be written stops the batch. Everything else that can go wrong comes after
a pointer was written, while superseded revisions are listed and removed: a refused listing, a name that is
no number, a refused removal. Such a thing is reported and passed over.

So whatever is refused, a batch leaves what its first switches leave when they are committed alone, under
the same refusals (`Item.commit_interrupted`):

* either these are all its switches, and it ends well,
* or the write of the next pointer was refused, and the batch ends with the reason of that
  (`Item.StoppedAt`).

The pointers can then be told without looking at the calls: an item has the number of its last switch that
was committed and required (`Item.pointedTo`), and an item without one has the pointer that it had. Several
switches of a batch may be of one item, but no item may stand above another one, since removing a revision
of the one could then remove the pointer of the other.
-/

namespace ClusterCatalog

open Plan Repository

namespace Access

variable {α : Type}

/-- **Without refusals**, an answer in turn is the answer. -/
theorem run_answerInTurn_nil (p : Access α) (s : Repository) :
    p.run answerInTurn (s, []) = ((p.run answer s).1, (p.run answer s).2, []) := by
  induction p generalizing s with
  | done a => rfl
  | stop f => rfl
  | ask r k ih => exact ih _ _

/-- A write is answered or refused, and then it has changed nothing. -/
theorem run_persist_answerInTurn (p : Path) (v : String) (s : Repository)
    (refusals : List (Option Error)) :
    (persist p v).run answerInTurn (s, refusals)
      = match refusals.head?.join with
        | none => (.ok (), s.persist p v, refusals.tail)
        | some e => (.error (.error e), s, refusals.tail) := by
  show (Plan.ofExcept (answerInTurn (.persist p v) (s, refusals)).1 : Access Unit).run answerInTurn
    (answerInTurn (.persist p v) (s, refusals)).2 = _
  unfold answerInTurn
  cases refusals.head?.join <;> rfl

end Access

namespace Item

variable {switch : PendingSwitch} {switches : List PendingSwitch} {r r' : Repository} {path : Path}
  {paths : Path → Prop}

/-! ### One switch -/

/-- **Pruning always ends well**, whatever is refused and whatever stands below the revisions. -/
theorem prune_ends_well (switch : PendingSwitch) (s : Repository) (refusals : List (Option Error)) :
    ((prune switch).run answerInTurn (s, refusals)).1 = .ok () := by
  have hkeeps : (prune switch).Keeps unsure (fun result _ => result = .ok ()) s :=
    keeps_prune (fun _ _ => True) (fun _ => trivial) (fun _ => trivial) (fun _ _ => rfl)
      (fun _ _ _ _ => trivial) (fun _ _ _ _ _ => ⟨trivial, trivial, fun _ _ => ⟨fun _ => trivial, trivial⟩⟩)
      fun _ _ => rfl
  exact Access.run_of_unsure hkeeps refusals

/-- **A batch has stopped at one of its switches**: those before it were committed, and the pointer that it
requires could not be written, which has changed nothing. -/
def StoppedAt (before : List PendingSwitch) (switch : PendingSwitch) (e : Error)
    (s : Repository × List (Option Error))
    (ended : Except Failure Unit × Repository × List (Option Error)) : Prop :=
  switch.isRequired = true ∧ ended.1 = .error (.error e)
    ∧ ∃ refusals, (commit before).run answerInTurn s = (.ok (), ended.2.1, refusals)
      ∧ (Access.persist switch.activeVersionPath (toString switch.next)).run answerInTurn
        (ended.2.1, refusals) = ended

/-- **Committing a switch under refusals**: it is not required, and nothing happens, or the pointer is moved,
or it cannot be written. -/
theorem run_commitOne_cases (switch : PendingSwitch) (s : Repository) (refusals : List (Option Error)) :
    (switch.isRequired = false
        ∧ (commitOne switch).run answerInTurn (s, refusals) = (.ok (), s, refusals))
      ∨ (switch.isRequired = true ∧ ∃ s', Moved switch s s'.1
        ∧ (commitOne switch).run answerInTurn (s, refusals) = (.ok (), s'))
      ∨ ∃ e, StoppedAt [] switch e (s, refusals) ((commitOne switch).run answerInTurn (s, refusals)) := by
  unfold commitOne
  split
  · rename_i hrequired
    right
    rw [bind_eq, run_bind, Access.run_persist_answerInTurn]
    -- the write of the pointer is the only call whose refusal is passed on
    cases hrefusal : refusals.head?.join with
    | none =>
      refine .inl ⟨hrequired, _, ?_, Prod.ext_iff.2 ⟨prune_ends_well _ _ _, rfl⟩⟩
      exact (Access.run_of_unsure (keeps_prune_moved switch s) refusals.tail).2
    | some e =>
      refine .inr ⟨e, hrequired, rfl, refusals, rfl, ?_⟩
      rw [Access.run_persist_answerInTurn, hrefusal]
  · rename_i hrequired
    exact .inl ⟨by simpa using hrequired, rfl⟩

/-! ### Batches -/

/-- A batch goes on after a switch that was committed. -/
theorem run_commit_cons {s s' : Repository × List (Option Error)}
    (h : (commitOne switch).run answerInTurn s = (.ok (), s')) (switches : List PendingSwitch) :
    (commit (switch :: switches)).run answerInTurn s = (commit switches).run answerInTurn s' := by
  rw [commit_cons, bind_eq, run_bind, h]

/-- A batch that cannot commit a switch ends there. -/
theorem run_commit_cons_of_error {s : Repository × List (Option Error)} {f : Failure}
    (h : ((commitOne switch).run answerInTurn s).1 = .error f) (switches : List PendingSwitch) :
    (commit (switch :: switches)).run answerInTurn s = (commitOne switch).run answerInTurn s := by
  rw [commit_cons, bind_eq, run_bind]
  generalize (commitOne switch).run answerInTurn s = ended at h
  obtain ⟨result, s'⟩ := ended
  obtain rfl : result = .error f := h
  rfl

/-- **A batch ends after all its switches, or is stopped at one of them.** -/
theorem run_commit_cases (switches : List PendingSwitch) (s : Repository × List (Option Error)) :
    ((commit switches).run answerInTurn s).1 = .ok ()
      ∨ ∃ before switch later e, switches = before ++ switch :: later
        ∧ StoppedAt before switch e s ((commit switches).run answerInTurn s) := by
  induction switches generalizing s with
  | nil => exact .inl rfl
  | cons switch switches ih =>
    -- the first switch is passed over, or committed, or it stops the batch
    have hcommitted : ∀ s', (commitOne switch).run answerInTurn s = (.ok (), s') →
        ((commit (switch :: switches)).run answerInTurn s).1 = .ok ()
          ∨ ∃ before stopped later e, switch :: switches = before ++ stopped :: later
            ∧ StoppedAt before stopped e s ((commit (switch :: switches)).run answerInTurn s) := by
      intro s' hs'
      rw [run_commit_cons hs']
      refine (ih s').imp id ?_
      rintro ⟨before, stopped, later, e, rfl, hrequired, herror, refusals, hbefore, hwrite⟩
      refine ⟨switch :: before, stopped, later, e, rfl, hrequired, herror, refusals, ?_, hwrite⟩
      rw [run_commit_cons hs']
      exact hbefore
    rcases run_commitOne_cases switch s.1 s.2 with ⟨-, hidle⟩ | ⟨-, s', -, hmoved⟩ | ⟨e, hstopped⟩
    · exact hcommitted _ hidle
    · exact hcommitted _ hmoved
    · refine .inr ⟨[], switch, switches, e, rfl, ?_⟩
      rw [run_commit_cons_of_error hstopped.2.1]
      exact hstopped

/-! ### Pointers -/

/-- A pointer that was moved has the numeral of the next revision. -/
theorem Moved.query_pointer (h : Moved switch r r') :
    r'.query (Path.activeVersion switch.path) = some (toString switch.next) := by
  have htext := h.pointer
  unfold text at htext
  cases hquery : r'.query (Path.activeVersion switch.path) with
  | some t =>
    rw [hquery] at htext
    exact congrArg some htext
  | none =>
    rw [hquery] at htext
    exact absurd htext.symm (isName_toString switch.next).1

/-- The pointer of another item stays, if neither item stands above the other one. -/
theorem Moved.query_pointer_of_ne (h : Moved switch r r') (hsep : Path.Separate paths)
    (hswitch : paths switch.path) (hpath : paths path) (hne : path ≠ switch.path) :
    r'.query (Path.activeVersion path) = r.query (Path.activeVersion path) := by
  have hpointer := (Path.isAbove_activeVersion path).covers
  rcases h.others _ fun heq => hne (Path.activeVersion_inj heq) with
    (hsame | ⟨⟨_, rfl, habove⟩, -⟩) | ⟨⟨n, -, hcovers⟩, -⟩
  · exact hsame
  · -- the pointer would stand above the one that was written
    exact absurd (hsep.eq_of_covers hpath hswitch (hpointer.trans habove.covers)
      (Path.isAbove_activeVersion _).covers) hne
  · -- the pointer would stand below a revision of the other item
    exact absurd (hsep.eq_of_covers hpath hswitch hpointer
      ((Path.isAbove_version switch.path n).covers.trans hcovers)) hne

/-- **The number that switches move the pointer of an item to**: the next one of the last of them that is of
this item and required. -/
def pointedTo (path : Path) (switches : List PendingSwitch) : Option Nat :=
  (switches.filter fun d => d.path = path ∧ d.isRequired = true).getLast?.map (·.next)

/-- The last required switch decides, so the first one counts if none of the others does. -/
theorem pointedTo_cons (path : Path) (switch : PendingSwitch) (switches : List PendingSwitch) :
    pointedTo path (switch :: switches) = (pointedTo path switches).or
      (if switch.path = path ∧ switch.isRequired = true then some switch.next else none) := by
  unfold pointedTo
  rw [List.filter_cons]
  split
  · rename_i hthis
    rw [if_pos (of_decide_eq_true hthis), List.getLast?_cons]
    cases (switches.filter fun d => d.path = path ∧ d.isRequired = true).getLast? <;> rfl
  · rename_i hother
    rw [if_neg fun h => hother (decide_eq_true h), Option.or_none]

/-- **The pointers after a batch** that ends well. -/
theorem query_pointer_of_run_commit (hsep : Path.Separate paths)
    (hpaths : ∀ d ∈ switches, paths d.path) (hpath : paths path)
    {s s' : Repository × List (Option Error)} (h : (commit switches).run answerInTurn s = (.ok (), s')) :
    s'.1.query (Path.activeVersion path)
      = ((pointedTo path switches).map toString).or (s.1.query (Path.activeVersion path)) := by
  induction switches generalizing s with
  | nil =>
    obtain rfl := (Prod.ext_iff.1 h).2
    rfl
  | cons switch switches ih =>
    rw [List.forall_mem_cons] at hpaths
    rw [pointedTo_cons]
    rcases run_commitOne_cases switch s.1 s.2 with ⟨hidle, hrun⟩ | ⟨hrequired, s₁, hmoved, hrun⟩
      | ⟨e, -, herror, -⟩
    · rw [run_commit_cons hrun] at h
      rw [ih hpaths.2 h, if_neg (by simp [hidle]), Option.or_none]
    · rw [run_commit_cons hrun] at h
      rw [ih hpaths.2 h]
      -- the pointer is that of this switch, or it is apart from all that the switch touches
      by_cases hthis : switch.path = path
      · subst hthis
        rw [hmoved.query_pointer, if_pos ⟨rfl, hrequired⟩]
        cases pointedTo switch.path switches <;> rfl
      · rw [hmoved.query_pointer_of_ne hsep hpaths.1 hpath (Ne.symm hthis), if_neg fun h => hthis h.1,
          Option.or_none]
    · -- a batch that is stopped does not end well
      rw [run_commit_cons_of_error herror] at h
      rw [h] at herror
      cases herror

/-- **A batch that is interrupted is a batch that was committed.** Whatever is refused, the switches that were
processed are all of the batch, which has ended well then, or the first ones, and then the write of the next
pointer was refused, and the batch has ended with the reason of that in the state that the first ones leave
under the same refusals. No failure of pruning ends a batch. The pointers are those that the processed
switches move, each as the last of them says that is of its item and required, and all others are as they
were. -/
theorem commit_interrupted (hsep : Path.Separate paths) (hpaths : ∀ d ∈ switches, paths d.path)
    (s : Repository) (refusals : List (Option Error)) :
    let ended := (commit switches).run answerInTurn (s, refusals)
    (∃ processed,
      (ended.1 = .ok () ∧ processed = switches
        ∨ ∃ switch later e, switches = processed ++ switch :: later
          ∧ StoppedAt processed switch e (s, refusals) ended)
      ∧ ∀ path, paths path → ended.2.1.query (Path.activeVersion path)
        = ((pointedTo path processed).map toString).or (s.query (Path.activeVersion path)))
      ∧ ∀ (d : PendingSwitch) (s : Repository) (refusals : List (Option Error)),
        ((prune d).run answerInTurn (s, refusals)).1 = .ok () := by
  intro ended
  refine ⟨?_, prune_ends_well⟩
  rcases run_commit_cases switches (s, refusals) with hok | ⟨before, switch, later, e, heq, hstopped⟩
  · exact ⟨switches, .inl ⟨hok, rfl⟩, fun path hpath =>
      query_pointer_of_run_commit hsep hpaths hpath (Prod.ext_iff.2 ⟨hok, rfl⟩)⟩
  · refine ⟨before, .inr ⟨switch, later, e, heq, hstopped⟩, fun path hpath => ?_⟩
    -- the state is the one after the switches before, which have all been committed
    obtain ⟨-, -, left, hbefore, -⟩ := hstopped
    refine query_pointer_of_run_commit hsep (fun d hd => hpaths d ?_) hpath hbefore
    rw [heq]
    exact List.mem_append_left _ hd

/-- The revisions of one item cannot be listed, those of the other one are not all numbered, and the pointer
that is moved for the second time is locked by then. -/
theorem commit_interrupted_at_locked_pointer :
    let paths := fun p : Path => p = "/a" ∨ p = "/b"
    let s := Repository.memory ⟨SortedMap.ofList [("/a/versions/0", "x"), ("/a/active_version", "0"),
      ("/b/versions/old", "y"), ("/b/active_version", "0")]⟩
    let switches := [⟨"/a", 0, 2⟩, ⟨"/b", 0, 1⟩, ⟨"/a", 2, 2⟩, ⟨"/a", 0, 1⟩]
    let refusals := [none, some (.repository "down"), none, none, none, none, some (.repository "locked")]
    let ended := (commit switches).run answerInTurn (s, refusals)
    Path.Separate paths ∧ (∀ d ∈ switches, paths d.path)
      ∧ ended.1 = .error (.error (.repository "locked"))
      ∧ ∃ processed, (∃ switch later e, switches = processed ++ switch :: later
          ∧ StoppedAt processed switch e (s, refusals) ended)
        ∧ ended.2.1.query (Path.activeVersion "/a")
          = ((pointedTo "/a" processed).map toString).or (s.query (Path.activeVersion "/a")) := by
  intro paths s switches refusals ended
  have hsep : Path.Separate paths := by
    rintro p q (rfl | rfl) (rfl | rfl) <;> decide
  have hpaths : ∀ d ∈ switches, paths d.path := by
    simp only [switches, List.forall_mem_cons]
    exact ⟨.inl rfl, .inr rfl, .inl rfl, .inl rfl, fun _ h => absurd h List.not_mem_nil⟩
  -- the listing of the first item is refused, that of the second has a name that is no number, and the
  -- pointer is locked when it is to be moved again
  have herror : ended.1 = .error (.error (.repository "locked")) := by decide +kernel
  obtain ⟨⟨processed, hprocessed, hpointer⟩, -⟩ := commit_interrupted hsep hpaths s refusals
  have hfailed : ¬ (ended.1 = .ok () ∧ processed = switches) := fun hok => by
    cases herror.symm.trans hok.1
  have ha : paths "/a" := .inl rfl
  exact ⟨hsep, hpaths, herror, processed, hprocessed.resolve_left hfailed, hpointer "/a" ha⟩

end Item

end ClusterCatalog
