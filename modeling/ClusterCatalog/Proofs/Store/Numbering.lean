import ClusterCatalog.Proofs.Store.Orderly

/-!
# The numbers of revisions

The number of a new revision is found by looking at the revisions that are there, and revisions are
removed all the time: switches are committed late, repeatedly or not at all, and removals are
refused half way. This module shows that the numbers still go up one by one, whatever is committed
and whatever is refused:

* `Item.Continues` — a number is the one after the greatest revision that is there;
* `Item.Owed` — what holds whenever a run makes a call: a revision is written only with the number
  that continues the ones that are there, and removed only while a greater one is there;
* `Item.keeps_stage_owed`, `Item.keeps_commit_owed`, `Item.keeps_publish_owed` — the three
  operations on items keep to that;
* `Item.Recorded` — so the revisions written so far have the numbers from zero on, one each, and
  the last one of them is there (`Item.Recorded.answer`);
* `NumberRun.numbers_ascend` — the same of every run, with what follows from it: no revision is
  written twice, none changes, and none comes back.

The invariant works because a removal never takes the greatest number. A switch that is committed
late removes what is below its own number, which is not the greatest one.
-/

namespace ClusterCatalog

namespace Item

open Plan Repository

variable {r : Repository} {p q path : Path} {n : Nat} {v : String} {paths : Path → Prop}

/-! ### Nodes that hold a revision -/

/-- The name of a node among the revisions of an item, if it is one of them. -/
def revisionName? (path x : Path) : Option String :=
  Path.childName? (Path.below (Path.versions path)) x

theorem revisionName?_eq_some_iff {x : Path} {name : String} :
    revisionName? path x = some name
      ↔ Path.IsName name ∧ x = Path.child (Path.versions path) name := by
  rw [revisionName?, Path.childName?_eq_some_iff, Path.below_versions]

theorem revisionName?_version (path : Path) (n : Nat) :
    revisionName? path (Path.version path n) = some (toString n) :=
  revisionName?_eq_some_iff.2 ⟨isName_toString n, rfl⟩

/-- A revision of one item is none of another one. -/
theorem revisionName?_version_of_ne (hne : p ≠ q) : revisionName? q (Path.version p n) = none := by
  rw [Option.eq_none_iff_forall_ne_some]
  intro name hname
  obtain ⟨hname, heq⟩ := revisionName?_eq_some_iff.1 hname
  have hversions := (Path.child_inj (isName_toString n).2 hname.2 heq).1
  exact hne (Path.child_inj Path.isName_versionsNode.2 Path.isName_versionsNode.2 hversions).1

/-- The pointer of an item is no revision. -/
theorem revisionName?_activeVersion (hsep : Path.Separate paths) (hp : paths p) (hq : paths q) :
    revisionName? q (Path.activeVersion p) = none := by
  rw [Option.eq_none_iff_forall_ne_some]
  intro name hname
  obtain ⟨hname, heq⟩ := revisionName?_eq_some_iff.1 hname
  -- the item would be the node that holds the revisions of the other one
  have hpath := (Path.child_inj Path.isName_activeVersionNode.2 hname.2 heq).1
  exact hsep q p hq hp (hpath ▸ Path.isAbove_versions q)

/-! ### The next number -/

/-- **A number continues the revisions of an item**: it is above all of them, and the one before it
is there, if it is not the first one. -/
def Continues (r : Repository) (path : Path) (n : Nat) : Prop :=
  (∀ m, Present r path m → m < n) ∧ (n ≠ 0 → Present r path (n - 1))

/-- The next number is one above a number that is there. -/
theorem pred_mem_of_nextRevision {found : List Nat} {next : Nat}
    (h : nextRevision found = .ok next) (hne : next ≠ 0) : next - 1 ∈ found := by
  unfold nextRevision at h
  split at h
  · cases h
    exact absurd rfl hne
  · rename_i latest hmax
    split at h
    · cases h
      exact (List.max?_eq_some_iff.1 hmax).1
    · cases h

/-- **The next number continues the revisions**, in whatever order they were listed. -/
theorem continues_of_nextRevision (hnumbered : Numbered r path) {found l : List Nat} {next : Nat}
    (hfound : numbers r path = .ok found) (hl : l.Perm found)
    (hnext : nextRevision l = .ok next) : Continues r path next := by
  have hmem : ∀ n, n ∈ l ↔ Present r path n := fun n =>
    hl.mem_iff.trans (hnumbered.mem_iff hfound)
  exact ⟨fun m hm => (lt_of_nextRevision hnext).2 m ((hmem m).2 hm),
    fun hne => (hmem _).1 (pred_mem_of_nextRevision hnext hne)⟩

/-- Only the greatest number has none after it. -/
theorem present_of_nextRevision_eq_error (hnumbered : Numbered r path) {found l : List Nat}
    {f : Failure} (hfound : numbers r path = .ok found) (hl : l.Perm found)
    (hnext : nextRevision l = .error f) : f = .overflow ∧ Present r path maxRevision := by
  have hmem : ∀ n, n ∈ l ↔ Present r path n := fun n =>
    hl.mem_iff.trans (hnumbered.mem_iff hfound)
  obtain ⟨rfl, hmax⟩ := eq_of_nextRevision_eq_error
    (fun n hn => hnumbered.le ((hmem n).1 hn)) hnext
  exact ⟨rfl, (hmem _).1 hmax⟩

/-- A text that stands for no number is the only thing that can be wrong with a pointer. -/
theorem eq_of_pointer_eq_error {f : Failure} (h : pointer r path = .error f) :
    ∃ text, f = .error (.invalidVersion (Path.activeVersion path) text) := by
  rw [pointer_eq] at h
  split at h
  · cases h
  · rw [number] at h
    cases hn : revisionOf? (text r (Path.activeVersion path)) with
    | none => rw [hn] at h; exact ⟨_, (Except.error.inj h).symm⟩
    | some n => rw [hn] at h; cases h

/-! ### What is owed by the operations on items -/

/-- **What holds when a call is made**: writes are of pointers and of revisions with the next
number, and a revision is removed only while a greater one is there. -/
def Owed (paths : Path → Prop) : StoreRequest → Repository → Prop
  | .persist x _, r => (∃ p, paths p ∧ x = Path.activeVersion p)
      ∨ ∃ p n, paths p ∧ x = Path.version p n ∧ n ≤ maxRevision ∧ Continues r p n
  | .delete x, r => ∃ p n m, paths p ∧ x = Path.version p n ∧ n < m ∧ Present r p m
  | .query _, _ => True
  | .children _, _ => True
  | .warn _, _ => True

/-- **How an operation ends**: the numbers that it hands out are those of revisions that are there,
and it has run out of numbers only at the greatest one. -/
def Ends (paths : Path → Prop) (target : Option Path) :
    Except Failure (List PendingSwitch) → Repository → Prop
  | .ok switches, r => ∀ d ∈ switches, paths d.path ∧ Present r d.path d.next
  | .error .overflow, r => ∃ p, target = some p ∧ paths p ∧ Present r p maxRevision
  | .error (.error _), _ => True

/-- **Writing a revision** keeps to what is owed. -/
theorem keeps_stage_owed (hpath : paths path) (hnumbered : Numbered r path) (value : String) :
    (stage path value).Keeps (terms (Owed paths) fun _ => True)
      (fun result => Ends paths (some path) (result.map fun d => [d])) r := by
  obtain ⟨found, hfound⟩ := hnumbered.exists_numbers
  unfold stage
  rw [keeps_bind]
  refine keeps_revisions trivial trivial (fun _ _ => trivial)
    (fun f hf => by rw [hf] at hfound; cases hfound) fun found l hfound hl => ?_
  show (Plan.ofResult (nextRevision l) >>= _).Keeps _ _ _
  rw [keeps_bind, keeps_ofResult]
  cases hnext : nextRevision l with
  | error f =>
    obtain ⟨rfl, hmax⟩ := present_of_nextRevision_eq_error hnumbered hfound hl hnext
    exact ⟨path, rfl, hpath, hmax⟩
  | ok next =>
    -- listings come in the order of the names, but only the greatest number counts
    have hcontinues := continues_of_nextRevision hnumbered hfound hl hnext
    have hle := (lt_of_nextRevision hnext).1
    have hpresent : Present (r.persist (Path.version path next) value) path next :=
      present_persist_version.2 (.inl rfl)
    have hended : ∀ {d : PendingSwitch} {s : Repository}, d.path = path → Present s path d.next →
        Ends paths (some path) (.ok [d]) s := by
      rintro d s rfl hd d' hd'
      obtain rfl := List.mem_singleton.1 hd'
      exact ⟨hpath, hd⟩
    show (Access.persist (Path.version path next) value >>= _).Keeps _ _ _
    rw [keeps_bind, Access.keeps_persist]
    refine ⟨.inr ⟨path, next, hpath, rfl, hle, hcontinues⟩, ?_, fun _ _ => trivial⟩
    show (active path >>= _).Keeps _ _ _
    rw [keeps_bind]
    refine keeps_active trivial (fun _ _ => trivial) ?_
    cases hpointer : pointer (r.persist (Path.version path next) value) path with
    | error f =>
      obtain ⟨text, rfl⟩ := eq_of_pointer_eq_error hpointer
      trivial
    | ok found =>
      cases found with
      | some current => exact hended rfl hpresent
      -- without a pointer the revision is active at once
      | none =>
        show (Access.persist (Path.activeVersion path) (toString next) >>= _).Keeps _ _ _
        rw [keeps_bind, Access.keeps_persist]
        exact ⟨.inl ⟨path, hpath, rfl⟩, hended rfl (present_persist_pointer.2 hpresent),
          fun _ _ => trivial⟩

/-- A revision covers no other one, of its own item or of a separate one. -/
theorem eq_of_version_covers_version (hsep : Path.Separate paths) (hp : paths p) (hq : paths q)
    {m : Nat} (h : (Path.version p n).Covers (Path.version q m)) : p = q ∧ n = m := by
  have habove := (Path.isAbove_version p n).covers.trans h
  obtain rfl := hsep.eq_of_covers hp hq habove (Path.isAbove_version q m).covers
  exact ⟨rfl, Path.covers_version_iff.1 h⟩

section Commit

variable {switches : List PendingSwitch} (top : Path → Nat)

/-- **Committing a switch** removes revisions below its number only, so a revision that is there and
not below any of the numbers stays. -/
theorem keeps_commitOne_owed (hsep : Path.Separate paths) {d : PendingSwitch} (hd : d ∈ switches)
    (hswitches : ∀ d ∈ switches, paths d.path ∧ d.next ≤ top d.path)
    (htop : ∀ d ∈ switches, Present r d.path (top d.path)) :
    (commitOne d).Keeps (terms (Owed paths) fun _ => True) (fun result s =>
      result ≠ .error .overflow ∧ ∀ d ∈ switches, Present s d.path (top d.path)) r := by
  obtain ⟨hpath, hnext⟩ := hswitches d hd
  unfold commitOne
  split
  · rw [keeps_bind, Access.keeps_persist]
    refine ⟨.inl ⟨d.path, hpath, rfl⟩, ?_, fun _ _ => ⟨by simp, htop⟩⟩
    -- moving the pointer removes nothing
    have hmoved : ∀ d' ∈ switches,
        Present (r.persist d.activeVersionPath (toString d.next)) d'.path (top d'.path) :=
      fun d' hd' => r.isSome_query_persist _ _ (htop d' hd')
    refine keeps_prune (fun _ s => ∀ d ∈ switches, Present s d.path (top d.path))
      (fun _ => trivial) (fun _ => trivial) (fun _ _ => ⟨by simp, hmoved⟩) (fun _ _ _ _ => hmoved)
      ?_ fun s hs => ⟨by simp, hs⟩
    intro n rest s hn hs
    have hlt : n < top d.path := Nat.lt_of_lt_of_le hn hnext
    refine ⟨⟨d.path, n, top d.path, hpath, rfl, hlt, hs d hd⟩, fun d' hd' => ?_,
      fun _ _ => ⟨fun _ => trivial, hs⟩⟩
    unfold Present
    rw [query_delete_version, if_neg]
    · exact hs d' hd'
    · -- what is pruned is below the number that is committed, and this is at most the last one
      intro hcovers
      obtain ⟨heq, rfl⟩ := eq_of_version_covers_version hsep hpath (hswitches d' hd').1 hcovers
      exact absurd hlt (by rw [heq]; exact Nat.lt_irrefl _)
  · exact ⟨by simp, htop⟩

/-- **Committing switches** keeps to what is owed. -/
theorem keeps_commit_owed (hsep : Path.Separate paths)
    (hswitches : ∀ d ∈ switches, paths d.path ∧ d.next ≤ top d.path)
    (htop : ∀ d ∈ switches, Present r d.path (top d.path)) :
    (commit switches).Keeps (terms (Owed paths) fun _ => True) (fun result s =>
      result ≠ .error .overflow ∧ ∀ d ∈ switches, Present s d.path (top d.path)) r := by
  -- the last revisions are there all along, in whatever order the switches are committed
  refine Keeps.forM (fun rest s => (∀ d ∈ rest, d ∈ switches)
    ∧ ∀ d ∈ switches, Present s d.path (top d.path)) ⟨fun _ hd => hd, htop⟩ ?_
    fun s hs => ⟨by simp, hs.2⟩
  rintro d rest s ⟨hrest, hs⟩
  refine (keeps_commitOne_owed top hsep (hrest d List.mem_cons_self) hswitches hs).mono ?_
  rintro (f | -) s ⟨hf, hs⟩
  · exact ⟨hf, hs⟩
  · exact ⟨fun d hd => hrest d (List.mem_cons_of_mem _ hd), hs⟩

end Commit

/-- **Writing a revision and committing it** keeps to what is owed. -/
theorem keeps_publish_owed (hsep : Path.Separate paths) (hpath : paths path)
    (hnumbered : Numbered r path) (value : String) :
    (publish path value).Keeps (terms (Owed paths) fun _ => True)
      (fun result => Ends paths (some path) (result.map fun d => [d])) r := by
  unfold publish
  refine (keeps_stage_owed hpath hnumbered value).bind ?_ fun f s hs => hs
  intro d s hd
  obtain ⟨hdpath, hpresent⟩ := hd d (List.mem_singleton_self d)
  -- the number that is committed is that of the revision itself
  refine (keeps_commit_owed (fun _ => d.next) hsep ?_ ?_).bind ?_ ?_
  · rintro d' hd'
    obtain rfl := List.mem_singleton.1 hd'
    exact ⟨hdpath, Nat.le_refl _⟩
  · rintro d' hd'
    obtain rfl := List.mem_singleton.1 hd'
    exact hpresent
  · rintro - s ⟨-, hs⟩ d' hd'
    obtain rfl := List.mem_singleton.1 hd'
    exact ⟨hdpath, hs d' (List.mem_singleton_self d')⟩
  · rintro (e | -) s ⟨hf, -⟩
    · trivial
    · exact absurd rfl hf

/-! ### The revisions that were written -/

/-- The revisions of an item among the nodes that were written, each with its name and its text. -/
def revisionsIn (path : Path) (record : List (Path × String)) : List (String × String) :=
  record.filterMap fun w => (revisionName? path w.1).map fun name => (name, w.2)

variable {record : List (Path × String)}

theorem revisionsIn_append (path : Path) (record later : List (Path × String)) :
    revisionsIn path (record ++ later) = revisionsIn path record ++ revisionsIn path later :=
  List.filterMap_append

/-- A node that is a revision of the item comes to its revisions. -/
theorem revisionsIn_concat_of_some {path p : Path} {name v : String} (h : revisionName? path p = some name) :
    revisionsIn path (record ++ [(p, v)]) = revisionsIn path record ++ [(name, v)] := by
  rw [revisionsIn_append, revisionsIn, revisionsIn, List.filterMap_cons, h]
  rfl

/-- Any other node leaves them alone. -/
theorem revisionsIn_concat_of_none {path p : Path} {v : String} (h : revisionName? path p = none) :
    revisionsIn path (record ++ [(p, v)]) = revisionsIn path record := by
  rw [revisionsIn_append, revisionsIn, revisionsIn, List.filterMap_cons, h]
  exact List.append_nil _

/-- **The revisions that are there were recorded**: those written so far have the numbers from zero
on, the last one is there, and each one that is there has the text that it was written with. -/
structure Recorded (paths : Path → Prop) (record : List (Path × String)) (r : Repository) :
    Prop where
  numbered : ∀ p, paths p → Numbered r p
  names : ∀ p, paths p → (revisionsIn p record).map Prod.fst
    = (List.range (revisionsIn p record).length).map toString
  /-- A revision that is there has the text that was written with its number. -/
  text : ∀ p, paths p → ∀ n v, r.query (Path.version p n) = some v →
    (revisionsIn p record)[n]? = some (toString n, v)
  /-- The last revision is never removed. -/
  last : ∀ p, paths p → (revisionsIn p record).length ≠ 0 →
    Present r p ((revisionsIn p record).length - 1)

theorem Recorded.empty (h : r.nodes = ∅) : Recorded paths [] r where
  numbered p _ := numbered_of_nodes_eq_empty h p
  names _ _ := rfl
  text p _ n v hv := by rw [query_of_nodes_eq_empty h] at hv; cases hv
  last _ _ hne := absurd rfl hne

/-- Every number that is there was written. -/
theorem Recorded.lt_of_present (h : Recorded paths record r) (hp : paths p)
    (hpresent : Present r p n) : n < (revisionsIn p record).length := by
  obtain ⟨v, hv⟩ := Option.isSome_iff_exists.1 hpresent
  exact (List.getElem?_eq_some_iff.1 (h.text p hp n v hv)).1

/-- **A number that continues the revisions is the count of those written.** -/
theorem Recorded.eq_of_continues (h : Recorded paths record r) (hp : paths p)
    (hn : Continues r p n) : n = (revisionsIn p record).length := by
  refine Nat.le_antisymm ?_ ?_
  · by_cases hzero : n = 0
    · exact hzero ▸ Nat.zero_le _
    · have := h.lt_of_present hp (hn.2 hzero)
      omega
  · by_cases hzero : (revisionsIn p record).length = 0
    · exact hzero ▸ Nat.zero_le _
    · have := hn.1 _ (h.last p hp hzero)
      omega

/-- No more revisions are written than there are numbers. -/
theorem Recorded.length_le (h : Recorded paths record r) (hp : paths p) :
    (revisionsIn p record).length ≤ maxRevision + 1 := by
  by_cases hzero : (revisionsIn p record).length = 0
  · omega
  · have := (h.numbered p hp).le (h.last p hp hzero)
    omega

/-- Writing the next revision puts it on record. -/
theorem Recorded.persist_version (hsep : Path.Separate paths) (h : Recorded paths record r)
    (hp : paths p) (hle : n ≤ maxRevision) (hn : Continues r p n) :
    Recorded paths (record ++ [(Path.version p n, v)]) (r.persist (Path.version p n) v) := by
  have hcount := h.eq_of_continues hp hn
  have hself : revisionsIn p (record ++ [(Path.version p n, v)])
      = revisionsIn p record ++ [(toString n, v)] :=
    revisionsIn_concat_of_some (revisionName?_version p n)
  have hother : ∀ q, p ≠ q →
      revisionsIn q (record ++ [(Path.version p n, v)]) = revisionsIn q record :=
    fun q hne => revisionsIn_concat_of_none (revisionName?_version_of_ne hne)
  -- the write changes no other revision, of this item or of another one
  have hquery : ∀ q, paths q → ∀ m, ¬ (p = q ∧ n = m) →
      (r.persist (Path.version p n) v).query (Path.version q m) = r.query (Path.version q m) :=
    fun q hq m hne => r.query_persist_of_not_covers _ _ fun hcovers =>
      hne ((eq_of_version_covers_version hsep hq hp hcovers).imp Eq.symm Eq.symm)
  refine ⟨fun q hq => (h.numbered q hq).persist_version hsep hp hq hle, fun q hq => ?_,
    fun q hq m w hw => ?_, fun q hq hne => ?_⟩
  -- the new number is the count, so the numbers go on without a gap
  · by_cases heq : p = q
    · subst heq
      rw [hself, List.map_append, h.names p hp, List.length_append, List.length_singleton,
        List.range_succ, List.map_append, ← hcount]
      rfl
    · rw [hother q heq]
      exact h.names q hq
  -- the new revision has the text that was just recorded, the others have theirs
  · by_cases heq : p = q ∧ n = m
    · obtain ⟨rfl, rfl⟩ := heq
      rw [query_persist_self] at hw
      obtain rfl := Option.some.inj hw
      rw [hself, hcount]
      exact List.getElem?_concat_length
    · rw [hquery q hq m heq] at hw
      have hold := h.text q hq m w hw
      by_cases hpath : p = q
      · subst hpath
        rw [hself, List.getElem?_append_left (List.getElem?_eq_some_iff.1 hold).1]
        exact hold
      · rw [hother q hpath]
        exact hold
  -- the new revision is the last one from now on
  · by_cases heq : p = q
    · subst heq
      rw [hself, List.length_append, List.length_singleton, Nat.add_sub_cancel, ← hcount]
      exact present_persist_version.2 (.inl rfl)
    · rw [hother q heq] at hne ⊢
      exact r.isSome_query_persist _ _ (h.last q hq hne)

/-- Writing a pointer puts no revision on record. -/
theorem Recorded.persist_pointer (hsep : Path.Separate paths) (h : Recorded paths record r)
    (hp : paths p) :
    Recorded paths (record ++ [(Path.activeVersion p, v)])
      (r.persist (Path.activeVersion p) v) := by
  have hsame : ∀ q, paths q →
      revisionsIn q (record ++ [(Path.activeVersion p, v)]) = revisionsIn q record :=
    fun q hq => revisionsIn_concat_of_none (revisionName?_activeVersion hsep hp hq)
  refine ⟨fun q hq => (h.numbered q hq).persist_pointer hsep hp hq, fun q hq => ?_,
    fun q hq m w hw => ?_, fun q hq hne => ?_⟩
  · rw [hsame q hq]
    exact h.names q hq
  · rw [hsame q hq]
    refine h.text q hq m w (hw ▸ (r.query_persist_of_not_covers _ _ fun hcovers => ?_).symm)
    -- a revision is neither a pointer nor above one
    have hpath := hsep.eq_of_covers hq hp ((Path.isAbove_version q m).covers.trans hcovers)
      (Path.isAbove_activeVersion p).covers
    exact Path.not_version_covers_activeVersion (hpath ▸ hcovers)
  · rw [hsame q hq] at hne ⊢
    exact r.isSome_query_persist _ _ (h.last q hq hne)

/-- A removed revision stays on record. -/
theorem Recorded.delete_version (hsep : Path.Separate paths) (h : Recorded paths record r)
    (hp : paths p) {m : Nat} (hlt : n < m) (hm : Present r p m) :
    Recorded paths record (r.delete (Path.version p n)) where
  numbered q hq := (h.numbered q hq).delete_version
  names := h.names
  text q hq k w hw := by
    rw [query_delete_version] at hw
    split at hw
    · cases hw
    · exact h.text q hq k w hw
  last q hq hne := by
    unfold Present
    rw [query_delete_version, if_neg]
    · exact h.last q hq hne
    · -- a greater number was written, so the one that is removed is not the last one
      intro hcovers
      obtain ⟨rfl, hlast⟩ := eq_of_version_covers_version hsep hp hq hcovers
      have := h.lt_of_present hp hm
      omega

end Item

/-- The node and the text that a call writes. -/
def StoreRequest.written : StoreRequest → List (Path × String)
  | .persist path value => [(path, value)]
  | _ => []

namespace Item

open Plan Repository

variable {r : Repository} {p : Path} {n : Nat} {v : String} {paths : Path → Prop}
  {record : List (Path × String)} {call : StoreRequest}

/-- **A call that keeps to what is owed** writes the next number or none. -/
theorem Recorded.answer (hsep : Path.Separate paths) (h : Recorded paths record r)
    (howed : Owed paths call r) :
    Recorded paths (record ++ call.written) (Repository.answer call r).2 := by
  -- what is owed says which of the three writes it is
  cases call with
  | persist x v =>
    rcases howed with ⟨p, hp, rfl⟩ | ⟨p, n, hp, rfl, hle, hn⟩
    · exact h.persist_pointer hsep hp
    · exact h.persist_version hsep hp hle hn
  | delete x =>
    obtain ⟨p, n, m, hp, rfl, hlt, hm⟩ := howed
    exact (List.append_nil record).symm ▸ h.delete_version hsep hp hlt hm
  | query x => exact (List.append_nil record).symm ▸ h
  | children x => exact (List.append_nil record).symm ▸ h
  | warn w => exact (List.append_nil record).symm ▸ h

/-- **A revision that was written before a call** is there afterwards only if it was there before,
with the same text. -/
theorem Recorded.query_eq (hsep : Path.Separate paths) (h : Recorded paths record r)
    (howed : Owed paths call r) (hp : paths p) (hn : n < (revisionsIn p record).length)
    (hv : (Repository.answer call r).2.query (Path.version p n) = some v) :
    r.query (Path.version p n) = some v := by
  -- only a write could change the text, and a deletion could only take it away
  cases call with
  | persist x w =>
    change (r.persist x w).query (Path.version p n) = some v at hv
    rw [r.query_persist_of_not_covers] at hv
    · exact hv
    · intro hcovers
      rcases howed with ⟨q, hq, rfl⟩ | ⟨q, m, hq, rfl, -, hm⟩
      · have hpath := hsep.eq_of_covers hp hq ((Path.isAbove_version p n).covers.trans hcovers)
          (Path.isAbove_activeVersion q).covers
        exact Path.not_version_covers_activeVersion (hpath ▸ hcovers)
      · -- the number that is written is the one after those written before
        obtain ⟨rfl, rfl⟩ := eq_of_version_covers_version hsep hp hq hcovers
        exact absurd (h.eq_of_continues hp hm) (Nat.ne_of_lt hn)
  | delete x =>
    change (r.delete x).query (Path.version p n) = some v at hv
    rw [r.query_delete] at hv
    split at hv
    · cases hv
    · exact hv
  | query x => exact hv
  | children x => exact hv
  | warn w => exact hv

end Item

/-! ### Runs -/

/-- **A move of a run**: an operation on items is begun, or the one that is going on makes its next
call, which may be refused. Switches that are committed are given by their places among those that
were handed out. -/
inductive NumberMove where
  | stage (path : Path) (value : String)
  | publish (path : Path) (value : String)
  | commit (places : List Nat)
  | call (refusal : Option Error)

/-- **A repository and its writer.** -/
structure NumberRun where
  repository : Repository
  /-- The item to which the operation begun last adds a revision. -/
  target : Option Path := none
  /-- What is left of that operation. It ends with the switches that it hands out. -/
  rest : Access (List PendingSwitch) := .done []
  /-- The switches that were handed out, the first one first. -/
  issued : List PendingSwitch := []
  /-- The nodes and texts that were written, the first one first. -/
  record : List (Path × String) := []

namespace NumberRun

open Item Plan Repository

/-- The run with the switches of an operation that is over. -/
def settle (s : NumberRun) : NumberRun :=
  match s.rest with
  | .done switches => { s with rest := .done [], issued := s.issued ++ switches }
  | _ => s

/-- The run after a move. An operation that is not over when the next one is begun is given up. -/
def step (s : NumberRun) : NumberMove → NumberRun
  | .stage path value =>
    { s with target := some path, rest := Item.stage path value >>= fun d => pure [d] }
  | .publish path value =>
    { s with target := some path, rest := Item.publish path value >>= fun d => pure [d] }
  | .commit places =>
    { s with
      target := none
      rest := Item.commit (places.filterMap (s.issued[·]?)) >>= fun _ => pure [] }
  | .call refusal =>
    match s.rest with
    | .ask call rest =>
      settle
        { s with
          repository := (Repository.answerUnless refusal call s.repository).2
          rest := rest (Repository.answerUnless refusal call s.repository).1
          record := if refusal.isNone then s.record ++ call.written else s.record }
    | _ => s

/-- The run after all moves. -/
def after (s : NumberRun) (moves : List NumberMove) : NumberRun := moves.foldl step s

/-- The paths that are written in a run. -/
def paths (moves : List NumberMove) : List Path :=
  moves.filterMap fun
    | .stage path _ => some path
    | .publish path _ => some path
    | .commit _ => none
    | .call _ => none

/-- **The revisions of an item that were written**, each with its name and its text. -/
def revisions (s : NumberRun) (path : Path) : List (String × String) := revisionsIn path s.record

/-- **The invariant of a run**: what is there was recorded, only numbers of recorded revisions are
handed out, and what is left of the operation that is going on keeps to what is owed. -/
structure Ascending (paths : Path → Prop) (s : NumberRun) : Prop where
  recorded : Recorded paths s.record s.repository
  issued : ∀ d ∈ s.issued, paths d.path ∧ d.next < (s.revisions d.path).length
  owed : s.rest.Keeps (terms (Owed paths) fun _ => True) (Ends paths s.target) s.repository

variable {paths : Path → Prop} {s : NumberRun}

@[simp] theorem settle_repository : s.settle.repository = s.repository := by
  unfold NumberRun.settle
  split <;> rfl

@[simp] theorem settle_record : s.settle.record = s.record := by
  unfold NumberRun.settle
  split <;> rfl

/-- An operation that is over hands out the numbers of revisions that are there. -/
theorem Ascending.settle (h : s.Ascending paths) : s.settle.Ascending paths := by
  unfold NumberRun.settle
  split
  · rename_i switches hrest
    have hends := h.owed
    rw [hrest] at hends
    refine ⟨h.recorded, fun d hd => ?_, fun d hd => absurd hd List.not_mem_nil⟩
    rcases List.mem_append.1 hd with hd | hd
    · exact h.issued d hd
    · obtain ⟨hpath, hpresent⟩ := hends d hd
      exact ⟨hpath, h.recorded.lt_of_present hpath hpresent⟩
  · exact h

/-- Whatever places are committed, the last revisions of the items are at or above the numbers. -/
theorem Ascending.keeps_commit (hsep : Path.Separate paths) (h : s.Ascending paths)
    (places : List Nat) :
    (Item.commit (places.filterMap (s.issued[·]?)) >>= fun _ => pure []).Keeps
      (terms (Owed paths) fun _ => True) (Ends paths none) s.repository := by
  -- a switch that is committed was issued before, so its number is one that was written
  have hissued : ∀ d ∈ places.filterMap (s.issued[·]?), d ∈ s.issued := by
    intro d hd
    obtain ⟨i, -, hi⟩ := List.mem_filterMap.1 hd
    exact List.mem_of_getElem? hi
  refine (keeps_commit_owed (fun p => (s.revisions p).length - 1) hsep ?_ ?_).bind ?_ ?_
  · intro d hd
    obtain ⟨hpath, hlt⟩ := h.issued d (hissued d hd)
    exact ⟨hpath, Nat.le_sub_one_of_lt hlt⟩
  · intro d hd
    obtain ⟨hpath, hlt⟩ := h.issued d (hissued d hd)
    exact h.recorded.last d.path hpath (Nat.ne_zero_of_lt hlt)
  · exact fun _ _ _ d hd => absurd hd List.not_mem_nil
  · rintro (e | -) r ⟨hf, -⟩
    · trivial
    · exact absurd rfl hf

/-- Handed out numbers stay below the count, which only grows. -/
theorem Ascending.issued_append (h : s.Ascending paths) (written : List (Path × String)) :
    ∀ d ∈ s.issued, paths d.path ∧ d.next < (revisionsIn d.path (s.record ++ written)).length := by
  intro d hd
  obtain ⟨hpath, hlt⟩ := h.issued d hd
  rw [revisionsIn_append, List.length_append]
  exact ⟨hpath, Nat.lt_add_right _ hlt⟩

/-- **One move** keeps the invariant. -/
theorem Ascending.step (hsep : Path.Separate paths) (h : s.Ascending paths) {move : NumberMove}
    (hmove : ∀ path ∈ NumberRun.paths [move], paths path) : (s.step move).Ascending paths := by
  cases move with
  | stage path value =>
    have hpath := hmove path (List.mem_singleton_self _)
    refine ⟨h.recorded, h.issued, keeps_bind.2 ?_⟩
    refine (keeps_stage_owed hpath (h.recorded.numbered path hpath) value).mono fun result r hr => ?_
    cases result <;> exact hr
  | publish path value =>
    have hpath := hmove path (List.mem_singleton_self _)
    refine ⟨h.recorded, h.issued, keeps_bind.2 ?_⟩
    refine (keeps_publish_owed hsep hpath (h.recorded.numbered path hpath) value).mono
      fun result r hr => ?_
    cases result <;> exact hr
  | commit places => exact ⟨h.recorded, h.issued, h.keeps_commit hsep places⟩
  | call refusal =>
    simp only [NumberRun.step]
    split
    · rename_i call rest hrest
      refine Ascending.settle ?_
      have hkeeps := h.owed
      rw [hrest] at hkeeps
      obtain ⟨howed, hnext⟩ := hkeeps
      have hnext := hnext _ _ ⟨refusal, fun _ _ => trivial, rfl⟩
      -- a refused call leaves no trace in the record
      cases refusal with
      | none => exact ⟨h.recorded.answer hsep howed, h.issued_append _, hnext⟩
      | some e => exact ⟨h.recorded, h.issued, hnext⟩
    -- no operation is going on
    · exact h

/-- **One move** writes no revision anew: what was written before is there afterwards only if it was
there before, with the same text. -/
theorem Ascending.query_step (hsep : Path.Separate paths) (h : s.Ascending paths)
    (move : NumberMove) {p : Path} (hp : paths p) :
    s.revisions p <+: (s.step move).revisions p ∧
      ∀ n < (s.revisions p).length, ∀ v,
        (s.step move).repository.query (Path.version p n) = some v →
          s.repository.query (Path.version p n) = some v := by
  cases move with
  | stage path value => exact ⟨List.prefix_rfl, fun _ _ _ hv => hv⟩
  | publish path value => exact ⟨List.prefix_rfl, fun _ _ _ hv => hv⟩
  | commit places => exact ⟨List.prefix_rfl, fun _ _ _ hv => hv⟩
  | call refusal =>
    simp only [NumberRun.step]
    split
    · rename_i call rest hrest
      have hkeeps := h.owed
      rw [hrest] at hkeeps
      unfold revisions
      rw [settle_repository, settle_record]
      -- a refused call leaves everything as it is
      cases refusal with
      | none =>
        refine ⟨?_, fun n hn v hv => h.recorded.query_eq hsep hkeeps.1 hp hn hv⟩
        exact (revisionsIn_append p s.record call.written).symm ▸ List.prefix_append _ _
      | some e => exact ⟨List.prefix_rfl, fun _ _ _ hv => hv⟩
    · exact ⟨List.prefix_rfl, fun _ _ _ hv => hv⟩

theorem paths_cons (move : NumberMove) (moves : List NumberMove) :
    NumberRun.paths (move :: moves) = NumberRun.paths [move] ++ NumberRun.paths moves :=
  List.filterMap_append (l := [move])

/-- **All moves** keep the invariant. -/
theorem Ascending.after (hsep : Path.Separate paths) {moves : List NumberMove}
    (h : s.Ascending paths) (hmoves : ∀ path ∈ NumberRun.paths moves, paths path) :
    (s.after moves).Ascending paths := by
  induction moves generalizing s with
  | nil => exact h
  | cons move moves ih =>
    rw [paths_cons] at hmoves
    exact ih (h.step hsep fun path hpath => hmoves path (List.mem_append_left _ hpath))
      fun path hpath => hmoves path (List.mem_append_right _ hpath)

/-- **All moves** write no revision anew. -/
theorem Ascending.query_after (hsep : Path.Separate paths) {moves : List NumberMove}
    (h : s.Ascending paths) (hmoves : ∀ path ∈ NumberRun.paths moves, paths path) {p : Path}
    (hp : paths p) :
    s.revisions p <+: (s.after moves).revisions p ∧
      ∀ n < (s.revisions p).length, ∀ v,
        (s.after moves).repository.query (Path.version p n) = some v →
          s.repository.query (Path.version p n) = some v := by
  induction moves generalizing s with
  | nil => exact ⟨List.prefix_rfl, fun _ _ _ hv => hv⟩
  | cons move moves ih =>
    rw [paths_cons] at hmoves
    -- what a later state has of an old revision, each state in between has
    have hstep := h.step hsep fun path hpath => hmoves path (List.mem_append_left _ hpath)
    obtain ⟨hgrows, hsame⟩ := ih hstep fun path hpath => hmoves path (List.mem_append_right _ hpath)
    obtain ⟨hgrowsStep, hsameStep⟩ := h.query_step hsep move hp
    refine ⟨hgrowsStep.trans hgrows, fun n hn v hv => hsameStep n hn v ?_⟩
    exact hsame n (Nat.lt_of_lt_of_le hn hgrowsStep.length_le) v hv

/-- **Revisions are numbered one by one and never change.** Whatever is written and committed in a
run on separate paths, however late and however often, and whichever calls are refused: the
revisions of a path that were written so far have the numbers from zero on, in this order, so none
was written twice. One that is there has the text that was written with its number. One that was
there or gone at an earlier moment is the same or still gone. And the numbers run out only when all
of them were written. -/
theorem numbers_ascend {r : Repository} (hempty : r.nodes = ∅) (moves : List NumberMove)
    (hsep : ∀ p ∈ NumberRun.paths moves, ∀ q ∈ NumberRun.paths moves, ¬ p.IsAbove q)
    {path : Path} (hpath : path ∈ NumberRun.paths moves) :
    let s := ({ repository := r } : NumberRun).after moves
    (s.revisions path).map Prod.fst = (List.range (s.revisions path).length).map toString
      ∧ ((s.revisions path).map Prod.fst).Nodup
      ∧ (∀ n v, s.repository.query (Path.version path n) = some v →
          (s.revisions path)[n]? = some (toString n, v))
      ∧ (∀ earlier, earlier <+: moves →
          let s₁ := ({ repository := r } : NumberRun).after earlier
          s₁.revisions path <+: s.revisions path
            ∧ ∀ n < (s₁.revisions path).length, ∀ v,
              s.repository.query (Path.version path n) = some v →
                s₁.repository.query (Path.version path n) = some v)
      ∧ (s.rest = .stop .overflow →
          ∃ p, s.target = some p ∧ (s.revisions p).length = maxRevision + 1) := by
  intro s
  have hseparate : Path.Separate (· ∈ NumberRun.paths moves) := fun p q hp hq => hsep p hp q hq
  have hstart : ({ repository := r } : NumberRun).Ascending (· ∈ NumberRun.paths moves) :=
    ⟨.empty hempty, fun d hd => absurd hd List.not_mem_nil, fun d hd => absurd hd List.not_mem_nil⟩
  have hs : s.Ascending (· ∈ NumberRun.paths moves) := hstart.after hseparate fun _ h => h
  have hnames := hs.recorded.names path hpath
  refine ⟨hnames, ?_, hs.recorded.text path hpath, ?_, ?_⟩
  · show ((revisionsIn path s.record).map Prod.fst).Nodup
    rw [hnames]
    exact List.pairwise_map.2 (List.nodup_range.imp fun hne heq => hne (toString_inj heq))
  · rintro earlier ⟨later, hmoves⟩
    -- the run goes on from the earlier moment
    have hafter : s = (({ repository := r } : NumberRun).after earlier).after later := by
      show NumberRun.after _ moves = _
      rw [← hmoves]
      exact List.foldl_append
    have hpaths : NumberRun.paths moves = NumberRun.paths earlier ++ NumberRun.paths later := by
      rw [← hmoves]
      exact List.filterMap_append
    have hearlier : (({ repository := r } : NumberRun).after earlier).Ascending
        (· ∈ NumberRun.paths moves) :=
      hstart.after hseparate fun p hp => by rw [hpaths]; exact List.mem_append_left _ hp
    rw [hafter]
    exact hearlier.query_after hseparate
      (fun p hp => by rw [hpaths]; exact List.mem_append_right _ hp) hpath
  · -- an operation that has stopped for want of a number found the greatest one
    intro hrest
    have hends := hs.owed
    rw [hrest] at hends
    obtain ⟨p, htarget, hp, hmax⟩ := hends
    refine ⟨p, htarget, Nat.le_antisymm (hs.recorded.length_le hp) ?_⟩
    exact hs.recorded.lt_of_present hp hmax

/-- A refused write, three revisions of which each removes the one before it, and a fourth one after
the second one was committed once more. -/
theorem numbers_ascend_over_late_commit :
    let publish (value : String) := NumberMove.publish "/a" value :: List.replicate 6 (.call none)
    let moves := [.publish "/a" "w", .call none, .call (some (.repository "down"))]
      ++ publish "x" ++ publish "x" ++ publish "x"
      ++ [.commit [1], .call none, .call none] ++ publish "y"
    let s := ({ repository := .memory .empty } : NumberRun).after moves
    (∀ p ∈ NumberRun.paths moves, ∀ q ∈ NumberRun.paths moves, ¬ p.IsAbove q)
      ∧ "/a" ∈ NumberRun.paths moves
      ∧ (s.revisions "/a").map Prod.fst = (List.range 4).map toString
      ∧ s.repository.query "/a/versions/3" = some "y"
      ∧ (s.revisions "/a")[3]? = some ("3", "y") := by
  intro publish moves s
  -- the first write is refused, and a switch of long ago is committed late
  have hrun : (s.revisions "/a").length = 4
      ∧ s.repository.query "/a/versions/3" = some "y" := by decide +kernel
  have hsep : ∀ p ∈ NumberRun.paths moves, ∀ q ∈ NumberRun.paths moves, ¬ p.IsAbove q := by
    decide +kernel
  have hpath : "/a" ∈ NumberRun.paths moves := by decide +kernel
  obtain ⟨hnames, -, htext, -⟩ := numbers_ascend (r := .memory .empty) rfl moves hsep hpath
  refine ⟨hsep, hpath, ?_, hrun.2, htext 3 "y" hrun.2⟩
  rw [hrun.1] at hnames
  exact hnames

end NumberRun

end ClusterCatalog
