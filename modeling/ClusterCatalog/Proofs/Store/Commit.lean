import ClusterCatalog.Proofs.Store.Item

/-!
# Late commits

A switch of the active revision is a value: it is handed out when a revision is written, and it can
be committed at any later time, in any order and more than once. This module is about an item whose
switches are used in such a way, in a repository that refuses nothing.

Revisions are numbered from zero without a gap, and committing a switch removes the revisions below
the one that it names. So a revision is there if it has been written and no number above it has been
committed (`CommitRun.Ordered.present_iff`), and the pointer is the number committed last. The two
agree exactly if the last number committed is the greatest one (`CommitRun.activeValue_isSome_iff`).
A switch that is committed after a later one leaves a pointer to nothing
(`CommitRun.not_always_present`).
-/

namespace ClusterCatalog

/-- **A move of a run** on one item: a revision is written, or some of the switches that were handed
out are committed, given by their places. -/
inductive CommitMove where
  | stage (value : String)
  | commit (places : List Nat)

/-- **A repository and the switches of an item.** -/
structure CommitRun where
  repository : Repository
  /-- The switches that were handed out, the first one first. -/
  issued : List PendingSwitch := []
  /-- The numbers that the pointer was moved to, the last one first. -/
  committed : List Nat := []

namespace CommitRun

open Item Plan Repository

/-- The run after a revision was written. The first one is active at once. -/
def staged (s : CommitRun) : Except Failure PendingSwitch → Repository → CommitRun
  | .ok switch, repository =>
    { repository
      issued := s.issued ++ [switch]
      committed := if switch.isRequired then s.committed else switch.next :: s.committed }
  | .error _, repository => { s with repository }

/-- The run after a switch was committed, which does nothing if the switch is not required. -/
def switched (s : CommitRun) (switch : PendingSwitch) (repository : Repository) : CommitRun :=
  { s with
    repository
    committed := if switch.isRequired then switch.next :: s.committed else s.committed }

/-- The run after a batch of switches was committed. -/
def switchedAll (s : CommitRun) (switches : List PendingSwitch) (repository : Repository) :
    CommitRun :=
  { s with
    repository
    committed := ((switches.filter (·.isRequired)).map (·.next)).reverse ++ s.committed }

/-- The run after a move. -/
def step (path : Path) (s : CommitRun) : CommitMove → CommitRun
  | .stage value =>
    let answered := (Item.stage path value).run Repository.answer s.repository
    s.staged answered.1 answered.2
  | .commit places =>
    let switches := places.filterMap (s.issued[·]?)
    s.switchedAll switches ((Item.commit switches).run Repository.answer s.repository).2

/-- The run after all moves. -/
def after (path : Path) (s : CommitRun) (moves : List CommitMove) : CommitRun :=
  moves.foldl (step path) s

/-! ### The invariant -/

/-- **The invariant of a run**: which revisions are there, and what the pointer is, follows from the
switches that were handed out and committed. -/
structure Ordered (path : Path) (s : CommitRun) : Prop where
  numbered : Numbered s.repository path
  /-- A revision is there if it was written and no number above it was committed. -/
  present_iff : ∀ n, Present s.repository path n
    ↔ n < s.issued.length ∧ ∀ m ∈ s.committed, m ≤ n
  /-- The pointer is the number committed last. -/
  pointer_eq : text s.repository (Path.activeVersion path)
    = (s.committed.head?.map toString).getD ""
  /-- Switches are handed out for this item, with one number after the other. -/
  issued : ∀ (i : Nat) (switch : PendingSwitch), s.issued[i]? = some switch → switch.path = path ∧ switch.next = i
  /-- Only numbers that were written are committed. -/
  committed_lt : ∀ m ∈ s.committed, m < s.issued.length
  /-- The first number is committed when it is written. -/
  committed_ne_nil : s.issued ≠ [] → s.committed ≠ []
  le_maxRevision : s.issued.length ≤ maxRevision + 1

variable {path : Path} {s : CommitRun}

/-- An item with no node and no switch is in order. -/
theorem Ordered.empty {r : Repository} (h : r.nodes = ∅) (path : Path) :
    Ordered path { repository := r } where
  numbered := numbered_of_nodes_eq_empty h path
  present_iff n := by simp [not_present_of_nodes_eq_empty h]
  pointer_eq := text_of_nodes_eq_empty h _
  issued i switch hi := by simp at hi
  committed_lt m hm := absurd hm List.not_mem_nil
  committed_ne_nil h := absurd rfl h
  le_maxRevision := Nat.zero_le _

/-- The pointer names the number that was committed last. -/
theorem Ordered.pointer (h : s.Ordered path) :
    pointer s.repository path = .ok s.committed.head? := by
  have htext := h.pointer_eq
  cases hhead : s.committed.head? with
  | none =>
    -- nothing was committed, so the pointer has no text
    rw [hhead] at htext
    exact pointer_of_text_eq_empty htext
  | some n =>
    rw [hhead] at htext
    refine pointer_of_text_eq htext ?_
    have hlt := h.committed_lt n (List.mem_of_mem_head? hhead)
    have hle := h.le_maxRevision
    omega

/-! ### Writing a revision -/

/-- The next number is that of the switches issued so far. -/
theorem Ordered.next_eq (h : s.Ordered path) {found l : List Nat} {next : Nat}
    (hfound : numbers s.repository path = .ok found) (hl : l.Perm found)
    (hnext : nextRevision l = .ok next) : next = s.issued.length := by
  have hmem : ∀ n, n ∈ l ↔ n < s.issued.length ∧ ∀ m ∈ s.committed, m ≤ n := fun n =>
    (hl.mem_iff.trans (h.numbered.mem_iff hfound)).trans (h.present_iff n)
  refine nextRevision_eq (fun n hn => ((hmem n).1 hn).1) (fun hne => (hmem _).2 ⟨by omega, ?_⟩) hnext
  intro m hm
  have hlt := h.committed_lt m hm
  omega

/-- The switches are numbered as they are issued. -/
theorem Ordered.issued_append (h : s.Ordered path) {switch : PendingSwitch}
    (hpath : switch.path = path) (hnext : switch.next = s.issued.length) (i : Nat)
    (found : PendingSwitch) (hi : (s.issued ++ [switch])[i]? = some found) :
    found.path = path ∧ found.next = i := by
  rw [List.getElem?_append] at hi
  split at hi
  · exact h.issued i found hi
  · rw [List.getElem?_singleton] at hi
    split at hi
    · cases hi
      exact ⟨hpath, by omega⟩
    · cases hi

/-- The first revision of an item is active at once. -/
theorem Ordered.staged_first (h : s.Ordered path) (hnil : s.committed = []) {r : Repository}
    {next : Nat} (hnext : next = s.issued.length) (hnumbered : Numbered r path)
    (hpresent : ∀ n, Present r path n ↔ n = next ∨ Present s.repository path n)
    (hpointer : text r (Path.activeVersion path) = toString next) :
    (s.staged (.ok ⟨path, next, next⟩) r).Ordered path := by
  -- with nothing committed nothing was issued, since the first switch moves the pointer itself
  have hissued : s.issued = [] := by
    by_contra hne
    exact h.committed_ne_nil hne hnil
  obtain rfl : next = 0 := by rw [hnext, hissued]; rfl
  have hstaged : s.staged (.ok ⟨path, 0, 0⟩) r = ⟨r, [⟨path, 0, 0⟩], [0]⟩ := by
    simp [CommitRun.staged, PendingSwitch.isRequired, hissued, hnil]
  rw [hstaged]
  refine ⟨hnumbered, fun n => ?_, hpointer, fun i found hi => ?_, fun m hm => ?_, fun _ => ?_, ?_⟩
  · rw [hpresent, h.present_iff, hissued]
    simp
  · have hi' : (s.issued ++ [⟨path, 0, 0⟩])[i]? = some found := by rw [hissued]; exact hi
    exact h.issued_append rfl hnext i found hi'
  · rw [List.mem_singleton.1 hm]
    exact Nat.zero_lt_one
  · exact List.cons_ne_nil _ _
  · exact Nat.succ_le_succ (Nat.zero_le _)

/-- A later revision is not active until its switch is committed. -/
theorem Ordered.staged_later (h : s.Ordered path) {current : Nat} (hcurrent : current ∈ s.committed)
    {r : Repository} {next : Nat} (hnext : next = s.issued.length) (hle : next ≤ maxRevision)
    (hnumbered : Numbered r path)
    (hpresent : ∀ n, Present r path n ↔ n = next ∨ Present s.repository path n)
    (hpointer : text r (Path.activeVersion path) = text s.repository (Path.activeVersion path)) :
    (s.staged (.ok ⟨path, current, next⟩) r).Ordered path := by
  have hlt := h.committed_lt
  have hstaged : s.staged (.ok ⟨path, current, next⟩) r
      = ⟨r, s.issued ++ [⟨path, current, next⟩], s.committed⟩ := by
    have hne : current ≠ next := Nat.ne_of_lt (hnext ▸ hlt current hcurrent)
    simp [CommitRun.staged, PendingSwitch.isRequired, hne]
  have hlength : (s.issued ++ [(⟨path, current, next⟩ : PendingSwitch)]).length = next + 1 := by
    rw [List.length_append, hnext]
    rfl
  rw [hstaged]
  refine ⟨hnumbered, fun n => ?_, hpointer.trans h.pointer_eq, ?_, fun m hm => ?_, fun _ => ?_, ?_⟩
  -- a number is present if it is the new one or was present; the new one is the greatest
  · rw [hlength, hpresent, h.present_iff, hnext]
    constructor
    · rintro (rfl | ⟨hn, hall⟩)
      · exact ⟨Nat.lt_succ_self _, fun m hm => Nat.le_of_lt (hlt m hm)⟩
      · exact ⟨Nat.lt_succ_of_lt hn, hall⟩
    · rintro ⟨hn, hall⟩
      rcases Nat.lt_succ_iff_lt_or_eq.1 hn with hn | rfl
      · exact .inr ⟨hn, hall⟩
      · exact .inl rfl
  · exact h.issued_append rfl hnext
  · have := hlt m hm
    rw [hlength]
    omega
  · exact List.ne_nil_of_mem hcurrent
  · rw [hlength]
    omega

/-- **Writing a revision** keeps the invariant. -/
theorem Ordered.keeps_stage (h : s.Ordered path) (value : String) :
    (Item.stage path value).Keeps sure (fun result r => (s.staged result r).Ordered path)
      s.repository := by
  refine keeps_stage_cases (fun _ he => he.elim) (fun _ _ => h) (fun _ _ _ _ => h)
    fun found next hfound hnext => ?_
  have heq := h.next_eq hfound (.refl _) hnext
  have hle := (lt_of_nextRevision hnext).1
  have hsep := separate_eq path
  have hnumbered := h.numbered.persist_version (v := value) hsep rfl rfl hle
  rw [h.pointer]
  -- the first revision gets the pointer at once, later ones wait for their commit
  cases hhead : s.committed.head? with
  | none =>
    refine h.staged_first (List.head?_eq_none_iff.1 hhead) heq
      (hnumbered.persist_pointer hsep rfl rfl) (fun n => ?_) (text_persist_self _)
    rw [present_persist_pointer, present_persist_version]
  | some current =>
    exact h.staged_later (List.mem_of_mem_head? hhead) heq hle hnumbered
      (fun n => present_persist_version) (text_persist Path.version_ne_activeVersion.symm)

/-! ### Committing a switch -/

/-- A commit is complete when the pointer has moved and exactly the numbers from the new one on are
left of those that were there. -/
theorem Ordered.committed (h : s.Ordered path) {next : Nat} (hnext : next < s.issued.length)
    {r : Repository} (hnumbered : Numbered r path)
    (htext : text r (Path.activeVersion path) = toString next)
    (hpresent : ∀ n, Present r path n ↔ Present s.repository path n ∧ next ≤ n) :
    Ordered path ⟨r, s.issued, next :: s.committed⟩ where
  numbered := hnumbered
  -- below the new number nothing is left, whether it was there before or not
  present_iff n := by
    rw [hpresent, h.present_iff, List.forall_mem_cons]
    exact ⟨fun hn => ⟨hn.1.1, hn.2, hn.1.2⟩, fun hn => ⟨⟨hn.1, hn.2.2⟩, hn.2.1⟩⟩
  pointer_eq := htext
  issued := h.issued
  committed_lt m hm := by
    rcases List.mem_cons.1 hm with rfl | hm
    · exact hnext
    · exact h.committed_lt m hm
  committed_ne_nil _ := List.cons_ne_nil _ _
  le_maxRevision := h.le_maxRevision

/-- **Committing a switch** keeps the invariant. -/
theorem Ordered.keeps_commitOne (h : s.Ordered path) {switch : PendingSwitch}
    (hmem : switch ∈ s.issued) :
    (Item.commitOne switch).Keeps sure
      (fun result r => result = .ok () ∧ (s.switched switch r).Ordered path) s.repository := by
  -- the switch is of this item, and its number is its place among the switches handed out
  obtain ⟨i, hi, rfl⟩ := List.mem_iff_getElem.1 hmem
  obtain ⟨hpath, hnext⟩ := h.issued i _ (List.getElem?_eq_getElem hi)
  generalize s.issued[i] = switch at hpath hnext
  obtain ⟨p, current, next⟩ := switch
  obtain rfl : p = path := hpath
  obtain rfl : next = i := hnext
  unfold Item.commitOne
  split
  · rename_i hrequired
    have hswitched : ∀ r, s.switched ⟨p, current, next⟩ r = ⟨r, s.issued, next :: s.committed⟩ :=
      fun r => by simp only [CommitRun.switched, hrequired, if_true]
    have hnumbered := h.numbered.persist_pointer (v := toString next) (separate_eq p) rfl rfl
    rw [keeps_bind, Access.keeps_persist]
    refine ⟨trivial, ?_, fun _ he => he.elim⟩
    -- what is listed below the new number and not yet removed may still be there
    refine keeps_prune (fun rest r => Numbered r p ∧ text r (Path.activeVersion p) = toString next
      ∧ (∀ n, Present r p n → Present s.repository p n ∧ (n < next → n ∈ rest))
      ∧ ∀ n, next ≤ n → Present s.repository p n → Present r p n)
      (fun _ => trivial) (fun _ => trivial) ?_ ?_ ?_ ?_
    -- no call is refused, and revisions that are numbered can be listed
    · rintro e (he | he)
      · exact he.elim
      · obtain ⟨found, hfound⟩ := hnumbered.exists_numbers
        exact absurd (hfound.symm.trans he) (by simp)
    -- at the start every number below is listed
    · intro found l hfound hl
      refine ⟨hnumbered, text_persist_self _, fun n hn => ⟨present_persist_pointer.1 hn, ?_⟩,
        fun n _ hn => present_persist_pointer.2 hn⟩
      intro hlt
      have hmem := hl.mem_iff.2 ((hnumbered.mem_iff hfound).2 hn)
      exact List.mem_filter.2 ⟨hmem, by simpa using hlt⟩
    -- one number after the other is removed
    · rintro n rest r hlt ⟨hnum, htext, hsub, hkept⟩
      refine ⟨trivial, ⟨hnum.delete_version, ?_, fun m hm => ?_, fun m hm hold => ?_⟩,
        fun _ he => he.elim⟩
      · exact (text_delete_version_activeVersion p n).trans htext
      · obtain ⟨hne, hm⟩ := present_delete_version.1 hm
        obtain ⟨hold, hlisted⟩ := hsub m hm
        exact ⟨hold, fun hmlt => (List.mem_cons.1 (hlisted hmlt)).resolve_left hne⟩
      · exact present_delete_version.2 ⟨(Nat.lt_of_lt_of_le hlt hm).ne', hkept m hm hold⟩
    -- at the end exactly the numbers from the new one on are left
    · rintro r ⟨hnum, htext, hsub, hkept⟩
      have hpresent : ∀ n, Present r p n ↔ Present s.repository p n ∧ next ≤ n := by
        intro n
        refine ⟨fun hn => ⟨(hsub n hn).1, ?_⟩, fun hn => hkept n hn.2 hn.1⟩
        by_contra hlt
        exact absurd ((hsub n hn).2 (Nat.lt_of_not_le hlt)) List.not_mem_nil
      refine ⟨rfl, ?_⟩
      rw [hswitched]
      exact h.committed hi hnum htext hpresent
  -- nothing is to be switched
  · rename_i hrequired
    have hswitched : s.switched ⟨p, current, next⟩ s.repository = s := by
      simp only [CommitRun.switched, if_neg hrequired]
    refine ⟨rfl, ?_⟩
    rw [hswitched]
    exact h

/-- **Committing switches** in order keeps the invariant. -/
theorem Ordered.run_commit (h : s.Ordered path) {switches : List PendingSwitch}
    (hmem : ∀ switch ∈ switches, switch ∈ s.issued) :
    (s.switchedAll switches
      ((Item.commit switches).run Repository.answer s.repository).2).Ordered path := by
  induction switches generalizing s with
  | nil => exact h
  | cons switch switches ih =>
    have hone := Access.keeps_run_iff.1 (h.keeps_commitOne (hmem switch List.mem_cons_self))
    rw [commit_cons, bind_eq, run_bind]
    generalize (Item.commitOne switch).run Repository.answer s.repository = answered at hone
    obtain ⟨result, r⟩ := answered
    obtain ⟨rfl, hone⟩ := hone
    have hrest := ih hone fun other hother => hmem other (List.mem_cons_of_mem _ hother)
    -- the run after the batch is the run after its first switch and then the others
    have hall : s.switchedAll (switch :: switches) = (s.switched switch r).switchedAll switches := by
      funext r'
      unfold CommitRun.switchedAll CommitRun.switched
      cases hrequired : switch.isRequired <;> simp [hrequired]
    rw [hall]
    exact hrest

/-! ### Runs -/

/-- **One move** keeps the invariant. -/
theorem Ordered.step (h : s.Ordered path) (move : CommitMove) : (s.step path move).Ordered path := by
  cases move with
  | stage value => exact Access.keeps_run_iff.1 (h.keeps_stage value)
  | commit places =>
    refine h.run_commit fun switch hswitch => ?_
    obtain ⟨i, -, hi⟩ := List.mem_filterMap.1 hswitch
    exact List.mem_of_getElem? hi

/-- **All moves** keep the invariant. -/
theorem Ordered.after (h : s.Ordered path) (moves : List CommitMove) :
    (s.after path moves).Ordered path := by
  induction moves generalizing s with
  | nil => exact h
  | cons move moves ih => exact ih (h.step move)

/-- **An item has a value exactly as long as the number committed last is the greatest one.** In
every run on an item, with its switches committed in any order and any number of times, the active
revision is the number committed last; and its text is there if and only if no greater number was
committed. -/
theorem activeValue_isSome_iff {r : Repository} (hempty : r.nodes = ∅) (path : Path)
    (moves : List CommitMove) :
    let s := ({ repository := r } : CommitRun).after path moves
    (Item.active path).run Repository.answer s.repository = (.ok s.committed.head?, s.repository)
      ∧ ((∃ value, (Item.activeValue path).run Repository.answer s.repository
            = (.ok (some value), s.repository))
          ↔ ∃ last, s.committed.head? = some last ∧ ∀ n ∈ s.committed, n ≤ last) := by
  intro s
  have hs : s.Ordered path := (Ordered.empty hempty path).after moves
  refine ⟨by rw [(reads_active _).run, hs.pointer], ?_⟩
  rw [(reads_activeValue _).run, value, hs.pointer]
  cases hhead : s.committed.head? with
  | none =>
    constructor
    · rintro ⟨value, hvalue⟩
      cases (Prod.ext_iff.1 hvalue).1
    · rintro ⟨last, hlast, -⟩
      cases hlast
  | some last =>
    have hlt := hs.committed_lt last (List.mem_of_mem_head? hhead)
    have hpresent := hs.present_iff last
    -- the text that is read is that of the number committed last, if this one is present
    constructor
    · rintro ⟨value, hvalue⟩
      refine ⟨last, rfl, (hpresent.1 ?_).2⟩
      have hquery : s.repository.query (Path.version path last) = some value :=
        Except.ok.inj (Prod.ext_iff.1 hvalue).1
      rw [Present, hquery]
      rfl
    · rintro ⟨_, hlast, hall⟩
      obtain rfl := Option.some.inj hlast
      obtain ⟨value, hvalue⟩ := Option.isSome_iff_exists.1 (hpresent.2 ⟨hlt, hall⟩)
      refine ⟨value, ?_⟩
      show (Except.ok (s.repository.query (Path.version path last)), s.repository) = _
      rw [hvalue]

/-- Switches that are committed in order, the later one at once, keep the value. -/
theorem activeValue_isSome_of_two_commits :
    let moves := [.stage "a", .stage "b", .stage "c", .commit [1, 2]]
    let s := ({ repository := .memory .empty } : CommitRun).after "/x" moves
    s.committed = [2, 1, 0]
      ∧ ∃ value, (Item.activeValue "/x").run Repository.answer s.repository
        = (.ok (some value), s.repository) := by
  intro moves s
  have hcommitted : s.committed = [2, 1, 0] := by decide +kernel
  refine ⟨hcommitted, (activeValue_isSome_iff (r := .memory .empty) rfl "/x" moves).2.2 ⟨2, ?_⟩⟩
  show s.committed.head? = some 2 ∧ ∀ n ∈ s.committed, n ≤ 2
  rw [hcommitted]
  decide

/-- **A late commit leaves a pointer to nothing**: the second switch is committed once more after
the third one, whose commit has removed the revision. -/
theorem not_always_present :
    let moves := [.stage "a", .stage "b", .commit [1], .stage "c", .commit [2], .commit [1]]
    let s := ({ repository := .memory .empty } : CommitRun).after "/x" moves
    ((Item.active "/x").run Repository.answer s.repository).1.toOption = some (some 1)
      ∧ ((Item.activeValue "/x").run Repository.answer s.repository).1.toOption = some none := by
  decide +kernel

end CommitRun

end ClusterCatalog
