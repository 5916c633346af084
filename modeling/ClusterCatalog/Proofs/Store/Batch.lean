import ClusterCatalog.Proofs.Store.Orderly

/-!
# Batches of revisions

Revisions are staged in a batch, and their switches are committed afterwards, in the order in which
they were handed out. A batch may stage several revisions of one item. Then the item has a **queue** of
switches (`Item.Queued`): their numbers ascend, and committing all of them shows the text of the last
one, because committing a switch removes what is below its own number only.

* `Item.Queued.keeps_stage` — staging a revision puts its switch at the end of the queue;
* `Item.Queued.keeps_commitOne` — committing the first switch of the queue takes it off.

An `Item.Batch` is a family of items that are apart, each with its part of the switches of one batch
as its queue. What is done to one item of the family leaves the others alone, so the two laws carry
over to batches (`Item.Batch.keeps_stage`, `Item.Batch.keeps_commitOne`), and so to a text that is
published at once (`Item.Batch.keeps_publish`).
-/

namespace ClusterCatalog

namespace Item

open Plan Repository

variable {r r' s : Repository} {path : Path} {v : String} {switch : PendingSwitch}
  {switches : List PendingSwitch} {shown : Option String}

/-! ### One revision -/

/-- **A fresh revision** has a number greater than those that were there, which stay. The pointer names
a revision afterwards; it is left alone, and there is something to commit, if it did so before. -/
structure Fresh (path : Path) (r : Repository) (switch : PendingSwitch) (r' : Repository) : Prop where
  lt_next : ∀ n, Present r path n → n < switch.next
  present : ∀ n, Present r path n → Present r' path n
  pointed : text r' (Path.activeVersion path) ≠ ""
  required : text r (Path.activeVersion path) ≠ "" → switch.isRequired = true

/-- **Staging** a revision of an item in order gives a fresh one. -/
theorem keeps_stage_fresh (h : Orderly s path) (v : String) :
    (stage path v).Keeps sure (fun result s' => ∀ switch, result = .ok switch → Fresh path s switch s')
      s := by
  refine keeps_stage_cases (fun _ he => he.elim) (fun _ _ _ h => by cases h)
    (fun _ _ _ _ _ h => by cases h) fun found next hfound hnext => ?_
  -- the new number is greater than those of all revisions that are there
  have hlt : ∀ n, Present s path n → n < next := fun n hn =>
    (lt_of_nextRevision hnext).2 n ((h.numbered.mem_iff hfound).2 hn)
  have hkept : ∀ n, Present s path n → Present (s.persist (Path.version path next) v) path n :=
    fun n hn => present_persist_version.2 (.inr hn)
  have htext : text (s.persist (Path.version path next) v) (Path.activeVersion path)
      = text s (Path.activeVersion path) := text_persist Path.version_ne_activeVersion.symm
  rcases h.pointed with hpointed | ⟨n, hn, hpresent⟩
  · -- the item had no pointer, so the new revision gets it
    rw [pointer_of_text_eq_empty hpointed]
    rintro switch h
    cases h
    refine ⟨hlt, fun n hn => present_persist_pointer.2 (hkept n hn), ?_,
      fun hne => absurd hpointed hne⟩
    rw [text_persist_self]
    exact (isName_toString next).1
  · -- the revision that the pointer names was there before, so it is not the new one
    rw [pointer_of_text_eq hn (h.numbered.le hpresent)]
    rintro switch h
    cases h
    refine ⟨hlt, hkept, ?_, fun _ => ?_⟩
    · rw [htext, hn]
      exact (isName_toString n).1
    · have hne : n ≠ next := Nat.ne_of_lt (hlt n hpresent)
      simpa [PendingSwitch.isRequired] using hne

/-- **What is kept of an item** when a switch is committed: its node, the revisions from a number on, and
that its pointer names something. -/
structure Retained (path : Path) (number : Nat) (r r' : Repository) : Prop where
  node : (r.query path).isSome → (r'.query path).isSome
  version : ∀ n, number ≤ n → r'.query (Path.version path n) = r.query (Path.version path n)
  pointed : text r (Path.activeVersion path) ≠ "" → text r' (Path.activeVersion path) ≠ ""

theorem Retained.refl (path : Path) (number : Nat) (r : Repository) : Retained path number r r :=
  ⟨id, fun _ _ => rfl, id⟩

/-- **Committing a switch** keeps everything from its number on, whatever is refused. -/
theorem keeps_commitOne_retained (switch : PendingSwitch) (s : Repository) :
    (commitOne switch).Keeps unsure (fun _ s' => Retained switch.path switch.next s s') s := by
  refine keeps_commitOne_cases (fun _ _ => .refl _ _ _) (fun _ => .refl _ _ _) fun s' _ hmoved => ?_
  refine ⟨hmoved.node, fun n => hmoved.query_version, fun _ => ?_⟩
  rw [hmoved.pointer]
  exact (isName_toString switch.next).1

/-! ### The queue of an item -/

/-- **An item with a queue of switches**, which shows a text once all of them are committed.

* The switches are those of revisions that are there, in ascending order of their numbers.
* The last one is staged with the text. It is not required only if it is the switch of a first revision,
  which has its pointer already; then there is no other one.
* Without switches the item shows the text, or is not there. -/
structure Queued (r : Repository) (path : Path) (switches : List PendingSwitch)
    (shown : Option String) : Prop where
  orderly : Orderly r path
  path_eq : ∀ d ∈ switches, d.path = path
  present : ∀ d ∈ switches, Present r path d.next
  ascending : switches.Pairwise fun a b => a.next < b.next
  pointed : switches ≠ [] → text r (Path.activeVersion path) ≠ ""
  last : ∀ d, switches.getLast? = some d →
    (∃ v, shown = some v ∧ Staged r d v) ∧ (d.isRequired = false → switches = [d])
  shows : switches = [] → ShowsAt r path shown

theorem queued_nil_iff : Queued r path [] shown ↔ Orderly r path ∧ ShowsAt r path shown :=
  ⟨fun h => ⟨h.orderly, h.shows rfl⟩,
    fun h => ⟨h.1, by simp, by simp, .nil, by simp, by simp, fun _ => h.2⟩⟩

/-- An item that nothing is stored of has an empty queue. -/
theorem queued_of_none (h : ∀ q, path.Covers q → r.query q = none) : Queued r path [] none :=
  queued_nil_iff.2 ⟨orderly_of_none fun q hq => h q hq.covers, h path (.refl path)⟩

/-- A queue is read off what is at and below the item. -/
theorem Queued.congr (h : Queued r path switches shown) (hsame : SameAt path r r') :
    Queued r' path switches shown where
  orderly := h.orderly.congr hsame
  path_eq := h.path_eq
  present d hd := by
    unfold Present
    rw [hsame _ (Path.isAbove_version path d.next).covers]
    exact h.present d hd
  ascending := h.ascending
  pointed hne := by
    rw [text, hsame _ (Path.isAbove_activeVersion path).covers]
    exact h.pointed hne
  -- the node of the last revision is below the item, so its text is as it was
  last d hd := by
    obtain ⟨⟨v, hv, hstaged⟩, hfirst⟩ := h.last d hd
    have hpath := h.path_eq d (List.mem_of_getLast? hd)
    exact ⟨⟨v, hv, hstaged.congr (hpath ▸ hsame)⟩, hfirst⟩
  shows hnil := (h.shows hnil).congr hsame

/-- The node of an item is there if the item will show something. -/
theorem Queued.node (h : Queued r path switches (some v)) : (r.query path).isSome := by
  cases hlast : switches.getLast? with
  | none => exact Shows.node (h.shows (List.getLast?_eq_none_iff.1 hlast))
  | some d =>
    obtain ⟨⟨_, -, hstaged⟩, -⟩ := h.last d hlast
    exact h.path_eq d (List.mem_of_getLast? hlast) ▸ hstaged.node

/-- **Something that is queued will be shown.** -/
theorem Queued.exists_shown (h : Queued r path switches shown) (hne : switches ≠ []) :
    ∃ v, shown = some v := by
  obtain ⟨d, hd⟩ := Option.isSome_iff_exists.1 (List.getLast?_isSome.2 hne)
  obtain ⟨⟨v, hv, -⟩, -⟩ := h.last d hd
  exact ⟨v, hv⟩

/-- **Staging a revision** puts its switch at the end of the queue, unless the numbers have run out. -/
theorem Queued.keeps_stage (h : Queued s path switches shown) (hpath : path ≠ "") (v : String) :
    (stage path v).Keeps sure (fun result s' => Written path s result s'
      ∧ ∀ d, result = .ok d → d.path = path ∧ Queued s' path (switches ++ [d]) (some v)) s := by
  refine ((keeps_stage_orderly h.orderly v).and ((keeps_stage_fresh h.orderly v).and
    (Access.keeps_of_unsure (Item.keeps_stage hpath v s)))).mono fun result s' hs' => ⟨hs'.1, ?_⟩
  rintro d rfl
  obtain ⟨hwritten, hfresh, hstaged⟩ := hs'
  have hfresh := hfresh d rfl
  obtain ⟨hdpath, hstaged⟩ := hstaged d rfl
  have hnew : Present s' path d.next := by
    rw [Present, ← hdpath, hstaged.written]
    rfl
  refine ⟨hdpath, hwritten.orderly, ?_, ?_, ?_, fun _ => hfresh.pointed, fun last hlast => ?_, by simp⟩
  · exact List.forall_mem_append.2 ⟨h.path_eq, List.forall_mem_singleton.2 hdpath⟩
  · have hold : ∀ d' ∈ switches, Present s' path d'.next := fun d' hd' =>
      hfresh.present _ (h.present d' hd')
    exact List.forall_mem_append.2 ⟨hold, List.forall_mem_singleton.2 hnew⟩
  · -- the new number is greater than those that are queued, because these are there
    refine List.pairwise_append.2 ⟨h.ascending, List.pairwise_singleton _ _, fun a ha b hb => ?_⟩
    rw [List.mem_singleton.1 hb]
    exact hfresh.lt_next _ (h.present a ha)
  · rw [List.getLast?_concat] at hlast
    obtain rfl := Option.some.inj hlast
    refine ⟨⟨v, rfl, hstaged⟩, fun hrequired => ?_⟩
    -- behind another switch, the pointer is set, and the new switch is required
    by_contra hne
    have hsome : switches ≠ [] := fun hnil => hne (by rw [hnil]; rfl)
    rw [hfresh.required (h.pointed hsome)] at hrequired
    cases hrequired

/-- **Committing the first switch** takes it off the queue. -/
theorem Queued.keeps_commitOne (h : Queued s path (switch :: switches) shown) :
    (commitOne switch).Keeps sure (fun result s' => result = .ok ()
      ∧ Queued s' path switches shown ∧ ∀ n, Present s' path n → Present s path n) s := by
  obtain rfl : switch.path = path := h.path_eq switch List.mem_cons_self
  have hordered := keeps_commitOne_orderly h.orderly (h.present switch List.mem_cons_self)
  cases switches with
  | nil =>
    -- the last switch shows its text
    obtain ⟨⟨v, rfl, hstaged⟩, -⟩ := h.last switch rfl
    refine (hordered.and (Access.keeps_of_unsure (keeps_commitOne_shows hstaged))).mono ?_
    rintro _ s' ⟨⟨rfl, horderly, hkept⟩, hshows⟩
    exact ⟨rfl, queued_nil_iff.2 ⟨horderly, hshows rfl⟩, hkept⟩
  | cons next rest =>
    refine (hordered.and (Access.keeps_of_unsure (keeps_commitOne_retained switch s))).mono ?_
    rintro _ s' ⟨⟨rfl, horderly, hkept⟩, hretained⟩
    obtain ⟨hlt, hascending⟩ := List.pairwise_cons.1 h.ascending
    -- what is still queued has greater numbers, so nothing of it has been removed
    have hsame : ∀ d ∈ next :: rest, s'.query (Path.version switch.path d.next)
        = s.query (Path.version switch.path d.next) := fun d hd =>
      hretained.version _ (Nat.le_of_lt (hlt d hd))
    refine ⟨rfl, ⟨horderly, fun d hd => h.path_eq d (List.mem_cons_of_mem _ hd), fun d hd => ?_, hascending,
      fun _ => hretained.pointed (h.pointed (List.cons_ne_nil _ _)), fun d hd => ?_, by simp⟩, hkept⟩
    · rw [Present, hsame d hd]
      exact h.present d (List.mem_cons_of_mem _ hd)
    · obtain ⟨⟨v, hv, hstaged⟩, hfirst⟩ := h.last d (by rw [List.getLast?_cons_cons]; exact hd)
      have hmem := List.mem_of_getLast? hd
      have hdpath := h.path_eq d (List.mem_cons_of_mem _ hmem)
      -- there is a switch before the last one, so the last one is required
      have hrequired : d.isRequired ≠ false := fun hfalse => by cases hfirst hfalse
      refine ⟨⟨v, hv, ⟨?_, ?_, hstaged.inRange, fun hfalse => absurd hfalse hrequired⟩⟩,
        fun hfalse => absurd hfalse hrequired⟩
      · rw [hdpath]
        exact hretained.node (hdpath ▸ hstaged.node)
      · rw [hdpath, hsame d hmem, ← hdpath]
        exact hstaged.written

/-! ### Families of items -/

section Batch

variable {ι : Type} {paths : ι → Path} {written : List Path}
  {texts texts' : ι → Option String}

/-- **A family of items in the middle of a batch.** The listed paths were written to, once for each
time they are listed; each item has its part of the switches as its queue. -/
structure Batch (paths : ι → Path) (r : Repository) (written : List Path)
    (switches : List PendingSwitch) (texts : ι → Option String) : Prop where
  of_item : ∀ d ∈ switches, ∃ i, d.path = paths i
  below : ∀ i, Below r (paths i) (written.count (paths i))
  queued : ∀ i, Queued r (paths i) (switches.filter (·.path = paths i)) (texts i)

theorem batch_of_nodes_eq_empty (h : r.nodes = ∅) : Batch paths r [] [] fun _ => none where
  of_item _ hd := absurd hd List.not_mem_nil
  below _ := below_of_none (fun q _ => query_of_nodes_eq_empty h q) _
  queued _ := queued_of_none fun q _ => query_of_nodes_eq_empty h q

/-- Between batches each item is left alone, or nothing is left of it. -/
theorem Batch.of_gone (h : Batch paths r written [] texts)
    (hi : ∀ i, SameAt (paths i) r r' ∧ texts' i = texts i
      ∨ (∀ q, (paths i).Covers q → r'.query q = none) ∧ texts' i = none) :
    Batch paths r' written [] texts' where
  of_item _ hd := absurd hd List.not_mem_nil
  below i := by
    rcases hi i with ⟨hsame, -⟩ | ⟨hgone, -⟩
    · exact (h.below i).congr hsame
    · exact below_of_none (fun q hq => hgone q hq.covers) _
  queued i := by
    rcases hi i with ⟨hsame, htext⟩ | ⟨hgone, htext⟩
    · exact htext ▸ (h.queued i).congr hsame
    · exact htext ▸ queued_of_none hgone

/-- **Staging a revision** of an item of the family, as long as there is a number left for it. -/
theorem Batch.keeps_stage [DecidableEq ι] (h : Batch paths s written switches texts) {i : ι}
    (hapart : ∀ j, j ≠ i → (paths i).Apart (paths j)) (hpath : paths i ≠ "")
    (hcount : written.count (paths i) < maxRevision)
    (htexts : ∀ j, texts' j = if j = i then some v else texts j) :
    (stage (paths i) v).Keeps sure (fun result s' => ∃ d, result = .ok d
      ∧ Batch paths s' (written ++ [paths i]) (switches ++ [d]) texts') s := by
  have hframe := Access.keeps_sameAt_within (uses_stage (paths i) v) s
  refine (((h.queued i).keeps_stage hpath v).and (Access.keeps_of_unsure hframe)).mono
    fun result s' ⟨⟨hwritten, hqueued⟩, hsame⟩ => ?_
  cases result with
  | error f =>
    -- the numbers of the item have not run out
    have hmax := h.below i _ (hwritten.error f rfl).2
    exact absurd (hmax.trans hcount) (Nat.lt_irrefl _)
  | ok d =>
    obtain ⟨hdpath, hqueued⟩ := hqueued d rfl
    refine ⟨d, rfl, ?_, fun j => ?_, fun j => ?_⟩
    · exact List.forall_mem_append.2 ⟨h.of_item, List.forall_mem_singleton.2 ⟨i, hdpath⟩⟩
    · rw [List.count_append]
      by_cases heq : j = i
      · subst heq
        rw [List.count_singleton_self]
        exact hwritten.below _ (h.below j)
      · exact ((h.below j).congr (hsame _ (hapart j heq))).mono (Nat.le_add_right _ _)
    · rw [List.filter_append, htexts]
      by_cases heq : j = i
      · subst heq
        rw [if_pos rfl, List.filter_cons_of_pos (by simpa using hdpath)]
        exact hqueued
      · -- the new switch is of another item
        have hother : d.path ≠ paths j := fun hd =>
          (hapart j heq).1 (.inl (hdpath.symm.trans hd))
        rw [if_neg heq, List.filter_cons_of_neg (by simpa using hother), List.filter_nil,
          List.append_nil]
        exact (h.queued j).congr (hsame _ (hapart j heq))

/-- **Committing the first switch** of a batch. -/
theorem Batch.keeps_commitOne (h : Batch paths s written (switch :: switches) texts)
    (hapart : ∀ i j, j ≠ i → (paths i).Apart (paths j)) :
    (commitOne switch).Keeps sure (fun result s' => result = .ok ()
      ∧ Batch paths s' written switches texts) s := by
  obtain ⟨i, hi⟩ := h.of_item switch List.mem_cons_self
  -- the switch is the first of its item too; the other items are apart from it
  have hqueue := h.queued i
  rw [List.filter_cons_of_pos (by simpa using hi)] at hqueue
  have hframe := Access.keeps_sameAt_within (uses_commitOne switch) s
  refine (hqueue.keeps_commitOne.and (Access.keeps_of_unsure hframe)).mono ?_
  rintro _ s' ⟨⟨rfl, hqueued, hkept⟩, hsame⟩
  rw [hi] at hsame
  refine ⟨rfl, fun d hd => h.of_item d (List.mem_cons_of_mem _ hd), fun j => ?_, fun j => ?_⟩
  · by_cases heq : j = i
    · subst heq
      exact fun n hn => h.below j n (hkept n hn)
    · exact (h.below j).congr (hsame _ (hapart i j heq))
  · by_cases heq : j = i
    · subst heq
      exact hqueued
    · have hqueue := h.queued j
      have hother : switch.path ≠ paths j := fun hd => (hapart i j heq).1 (.inl (hi.symm.trans hd))
      rw [List.filter_cons_of_neg (by simpa using hother)] at hqueue
      exact hqueue.congr (hsame _ (hapart i j heq))

/-- **Publishing a text** in an item of the family is a batch of its own. -/
theorem Batch.keeps_publish [DecidableEq ι] (h : Batch paths s written [] texts) {i : ι}
    (hapart : ∀ i j, j ≠ i → (paths i).Apart (paths j)) (hpath : paths i ≠ "")
    (hcount : written.count (paths i) < maxRevision)
    (htexts : ∀ j, texts' j = if j = i then some v else texts j) :
    (publish (paths i) v).Keeps sure (fun result s' => (∃ d, result = .ok d)
      ∧ Batch paths s' (written ++ [paths i]) [] texts') s := by
  unfold publish
  refine (h.keeps_stage (hapart i) hpath hcount htexts).bind (fun d s₁ h₁ => ?_)
    fun _ _ ⟨_, h, _⟩ => by cases h
  -- the switch that was just staged is the only one, so committing it leaves none
  obtain ⟨_, hd, hstaged⟩ := h₁
  cases hd
  rw [commit_singleton]
  refine (Batch.keeps_commitOne hstaged hapart).bind (fun _ s₂ h₂ => ?_) fun _ _ ⟨h, _⟩ => by cases h
  exact ⟨⟨d, rfl⟩, h₂.2⟩

end Batch

end Item

end ClusterCatalog
