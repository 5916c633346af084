import ClusterCatalog.Proofs.Store.Interruption

/-!
# Committing twice

A caller that does not know whether a batch of switches was committed can commit it once more. Without
refusals the second time changes nothing, whatever stands below the revisions of the items and however often
an item occurs in the batch.

Committing a switch writes the pointer and removes what is superseded: what is at or below a revision with a
lower number. Nothing is removed if a name below the revisions is no number (`Item.Superseded`,
`Item.Committed`). Afterwards the switch is **spent** (`Item.Spent`): the pointer has its place, and nothing
is superseded by the switch any more.

* A spent switch stays spent when other switches are committed, of the same item or of others
  (`Item.Spent.committed`). It is here that a name which is no number could do harm: if it were removed, the
  revisions could be listed again, and there would be something to remove. But what is removed has a numeral
  as its name (`Item.Committed.superseded`).
* Committing a spent switch changes the text of the pointer only (`Item.Spent.query_eq`), and the texts of the
  pointers in the end are told by the batch (`Item.query_pointer_of_run_commit`).
-/

namespace ClusterCatalog

open Plan Repository

namespace Item

variable {switch d : PendingSwitch} {switches : List PendingSwitch} {r r' s : Repository} {path q : Path}
  {paths : Path → Prop} {name : String} {n : Nat}

/-- What stands below the revisions of an item is above no pointer, among separate paths. -/
theorem not_child_covers_activeVersion (hsep : Path.Separate paths) {p q : Path} (hp : paths p)
    (hq : paths q) (name : String) : ¬ (Path.child (Path.versions p) name).Covers (Path.activeVersion q) := by
  intro hcovers
  have hbelow : p.Covers (Path.child (Path.versions p) name) :=
    (Path.isAbove_versions p).covers.trans (Path.isAbove_child _ _).covers
  obtain rfl := hsep.eq_of_covers hp hq (hbelow.trans hcovers) (Path.isAbove_activeVersion q).covers
  exact (Path.apart_activeVersion_version p name).2 hcovers

/-! ### What is superseded -/

/-- **A node is superseded by a switch**: the revisions of the item can be listed, and the node is at or below
one of them that has a lower number. -/
def Superseded (r : Repository) (switch : PendingSwitch) (q : Path) : Prop :=
  (∀ name ∈ r.children (Path.versions switch.path), (revisionOf? name).isSome)
    ∧ ∃ name ∈ r.children (Path.versions switch.path), ∃ n, revisionOf? name = some n
      ∧ n < switch.next ∧ (Path.version switch.path n).Covers q

/-- **What committing a switch leaves**: the pointer is written, and what is superseded is gone. -/
structure Committed (switch : PendingSwitch) (r r' : Repository) : Prop where
  removed : ∀ q, Superseded r switch q → r'.query q = none
  kept : ∀ q, ¬ Superseded r switch q →
    r'.query q = (r.persist (Path.activeVersion switch.path) (toString switch.next)).query q

/-- Moving a pointer does not change what is listed below the revisions. -/
theorem children_persist_pointer (path : Path) (v : String) :
    (r.persist (Path.activeVersion path) v).children (Path.versions path)
      = r.children (Path.versions path) := by
  refine children_ext _ _ fun name => ?_
  rw [mem_children_versions_iff, mem_children_versions_iff,
    query_persist_of_not_covers _ _ _ (Path.apart_activeVersion_version path name).2]

/-- What is listed after a pointer was moved are the numbers that were there before. -/
theorem mem_numbers_persist_pointer_iff {v : String} {found : List Nat}
    (h : numbers (r.persist (Path.activeVersion path) v) path = .ok found) :
    (∀ name ∈ r.children (Path.versions path), (revisionOf? name).isSome)
      ∧ ∀ n, n ∈ found ↔ ∃ name ∈ r.children (Path.versions path), revisionOf? name = some n := by
  rw [numbers_eq_ok_iff, children_persist_pointer] at h
  obtain ⟨hall, rfl⟩ := h
  exact ⟨hall, fun n => List.mem_filterMap⟩

/-- **Committing a required switch** without refusals writes the pointer and removes what is superseded. -/
theorem keeps_commitOne_committed (hrequired : switch.isRequired = true) (s : Repository) :
    (commitOne switch).Keeps sure (fun result s' => result = .ok () ∧ Committed switch s s') s := by
  unfold commitOne
  rw [if_pos hrequired, keeps_bind, Access.keeps_persist]
  refine ⟨trivial, ?_, fun _ he => he.elim⟩
  -- each node is gone and superseded, or it is as it was, and if it is superseded its turn is still to come
  refine keeps_prune (fun rest s' => (∀ n ∈ rest, ∀ q, (Path.version switch.path n).Covers q →
        Superseded s switch q)
      ∧ ∀ q, (Superseded s switch q ∧ s'.query q = none)
        ∨ (s'.query q = (s.persist (Path.activeVersion switch.path) (toString switch.next)).query q
          ∧ (Superseded s switch q → ∃ n ∈ rest, (Path.version switch.path n).Covers q)))
    (fun _ => trivial) (fun _ => trivial) ?_ ?_ ?_ ?_
  · -- revisions that cannot be listed supersede nothing
    rintro e (he | he)
    · exact he.elim
    refine ⟨rfl, fun q hq => ?_, fun q _ => rfl⟩
    have hfound := numbers_eq_ok_iff.2 ⟨(children_persist_pointer (r := s) switch.path
      (toString switch.next)).symm ▸ hq.1, rfl⟩
    cases hfound.symm.trans he
  · -- when the removal begins, what is to be removed is what is superseded
    intro found l hfound hperm
    obtain ⟨hall, hmem⟩ := mem_numbers_persist_pointer_iff hfound
    refine ⟨fun n hn q hcovers => ?_, fun q => .inr ⟨rfl, ?_⟩⟩
    · obtain ⟨hn, hlt⟩ := List.mem_filter.1 hn
      obtain ⟨name, hname, hnumber⟩ := (hmem n).1 (hperm.mem_iff.1 hn)
      exact ⟨hall, name, hname, n, hnumber, of_decide_eq_true hlt, hcovers⟩
    · rintro ⟨-, name, hname, n, hnumber, hlt, hcovers⟩
      have hfound := hperm.mem_iff.2 ((hmem n).2 ⟨name, hname, hnumber⟩)
      exact ⟨n, List.mem_filter.2 ⟨hfound, decide_eq_true hlt⟩, hcovers⟩
  · -- a revision is removed: what is at or below it is gone, and the turn of other nodes is not over
    rintro n rest s' - ⟨hrest, hnodes⟩
    refine ⟨trivial, ⟨fun m hm => hrest m (List.mem_cons_of_mem _ hm), fun q => ?_⟩, fun _ he => he.elim⟩
    rw [query_delete_version]
    split
    · rename_i hcovers
      exact .inl ⟨hrest n List.mem_cons_self q hcovers, rfl⟩
    · rename_i hcovers
      refine (hnodes q).imp id fun ⟨hsame, hturn⟩ => ⟨hsame, fun hq => ?_⟩
      obtain ⟨m, hm, hm'⟩ := hturn hq
      rcases List.mem_cons.1 hm with rfl | hm
      · exact absurd hm' hcovers
      · exact ⟨m, hm, hm'⟩
  · -- in the end no turn is left, so no node that is superseded is there
    rintro s' ⟨-, hnodes⟩
    refine ⟨rfl, fun q hq => ?_, fun q hq => ?_⟩
    · rcases hnodes q with ⟨-, hnone⟩ | ⟨-, hturn⟩
      · exact hnone
      · obtain ⟨n, hn, -⟩ := hturn hq
        exact absurd hn List.not_mem_nil
    · exact (hnodes q).elim (fun h => absurd h.1 hq) (·.1)

/-- A node below the revisions of an item is as before, or it is gone and has a numeral as its name. -/
theorem Committed.query_child (h : Committed switch r r') (hsep : Path.Separate paths)
    (hswitch : paths switch.path) (hpath : paths path) (hname : Path.IsName name) :
    r'.query (Path.child (Path.versions path) name) = r.query (Path.child (Path.versions path) name)
      ∨ (revisionOf? name).isSome ∧ r'.query (Path.child (Path.versions path) name) = none := by
  by_cases hsuperseded : Superseded r switch (Path.child (Path.versions path) name)
  · refine .inr ⟨?_, h.removed _ hsuperseded⟩
    obtain ⟨-, text, -, n, hnumber, -, hcovers⟩ := hsuperseded
    -- the node is the revision itself, of the same item
    obtain rfl := hsep.eq_of_covers hswitch hpath ((Path.isAbove_version _ n).covers.trans hcovers)
      ((Path.isAbove_versions path).covers.trans (Path.isAbove_child _ name).covers)
    obtain rfl : toString n = name := by
      by_contra hne
      exact (Path.apart_version (isName_toString n) hname hne).1 hcovers
    rw [revisionOf?_toString (le_of_revisionOf? hnumber)]
    rfl
  · rw [h.kept _ hsuperseded]
    exact .inl (query_persist_of_not_covers _ _ _ (not_child_covers_activeVersion hsep hpath hswitch name))

/-- **What is superseded afterwards was superseded before**: no name comes to be below the revisions of an
item, and none that is no number goes away. -/
theorem Committed.superseded (h : Committed switch r r') (hsep : Path.Separate paths)
    (hswitch : paths switch.path) (hd : paths d.path) (hq : Superseded r' d q) : Superseded r d q := by
  obtain ⟨hall, name, hname, n, hnumber, hlt, hcovers⟩ := hq
  -- a commit adds no revision, so what is listed after it was listed before
  have hlisted : ∀ name, name ∈ r'.children (Path.versions d.path) →
      name ∈ r.children (Path.versions d.path) := by
    intro name hname
    obtain ⟨hisName, hsome⟩ := mem_children_versions_iff.1 hname
    rcases h.query_child hsep hswitch hd hisName with hsame | ⟨-, hnone⟩
    · exact mem_children_versions_iff.2 ⟨hisName, hsame ▸ hsome⟩
    · rw [hnone] at hsome
      cases hsome
  refine ⟨fun name hname => ?_, name, hlisted name hname, n, hnumber, hlt, hcovers⟩
  obtain ⟨hisName, hsome⟩ := mem_children_versions_iff.1 hname
  rcases h.query_child hsep hswitch hd hisName with hsame | ⟨hnumber, -⟩
  · exact hall name (mem_children_versions_iff.2 ⟨hisName, hsame.symm ▸ hsome⟩)
  · exact hnumber

/-! ### Spent switches -/

/-- **A switch is spent**: the pointer of its item has its place, and the switch supersedes nothing. -/
structure Spent (switch : PendingSwitch) (r : Repository) : Prop where
  placed : ∀ q : Path, q ≠ "" → q.Covers (Path.activeVersion switch.path) → (r.query q).isSome
  removed : ∀ q : Path, Superseded r switch q → r.query q = none

/-- **A switch that has been committed is spent.** -/
theorem Committed.spent (h : Committed switch r r') : Spent switch r' := by
  refine ⟨fun q hq hcovers => ?_, fun q hq => ?_⟩
  · have hkept : ¬ Superseded r switch q := by
      rintro ⟨-, -, -, n, -, -, hversion⟩
      exact Path.not_version_covers_activeVersion (hversion.trans hcovers)
    rw [h.kept q hkept]
    exact isSome_query_persist_of_covers _ _ _ hq hcovers
  · exact h.removed q (h.superseded (separate_eq switch.path) rfl rfl hq)

/-- **A spent switch stays spent** when a switch is committed. -/
theorem Spent.committed (hspent : Spent d r) (h : Committed switch r r') (hsep : Path.Separate paths)
    (hswitch : paths switch.path) (hd : paths d.path) : Spent d r' := by
  refine ⟨fun q hq hcovers => ?_, fun q hq => ?_⟩
  · have hkept : ¬ Superseded r switch q := by
      rintro ⟨-, -, -, n, -, -, hversion⟩
      exact not_child_covers_activeVersion hsep hswitch hd (toString n) (hversion.trans hcovers)
    rw [h.kept q hkept]
    exact isSome_query_persist _ _ _ (hspent.placed q hq hcovers)
  · by_cases hgone : Superseded r switch q
    · exact h.removed q hgone
    · have hold := h.superseded hsep hswitch hd hq
      obtain ⟨-, -, -, n, -, -, hversion⟩ := hq
      -- what is below a revision is not above the pointer that was written
      rw [h.kept q hgone, query_persist_of_not_covers _ _ _ fun hcovers =>
        not_child_covers_activeVersion hsep hd hswitch (toString n) (hversion.trans hcovers)]
      exact hspent.removed q hold

/-- **Committing a spent switch** changes the text of the pointer only. -/
theorem Spent.query_eq (hspent : Spent switch r) (h : Committed switch r r')
    (hq : q ≠ Path.activeVersion switch.path) : r'.query q = r.query q := by
  by_cases hgone : Superseded r switch q
  · rw [h.removed q hgone, hspent.removed q hgone]
  · rw [h.kept q hgone, query_persist, if_neg hq]
    split
    · -- the nodes above the pointer were there already
      rename_i hmem
      obtain ⟨hne, habove⟩ := Path.mem_ancestors_iff.1 hmem
      obtain ⟨v, hv⟩ := Option.isSome_iff_exists.1 (hspent.placed q hne habove.covers)
      rw [hv]
      rfl
    · rfl

/-- Committing a switch without refusals: it is not required, and nothing happens, or it is committed. -/
theorem keeps_commitOne_either (switch : PendingSwitch) (s : Repository) :
    (commitOne switch).Keeps sure (fun result s' => result = .ok ()
      ∧ (switch.isRequired = false ∧ s' = s ∨ switch.isRequired = true ∧ Committed switch s s')) s := by
  by_cases hrequired : switch.isRequired = true
  · exact (keeps_commitOne_committed hrequired s).mono fun _ _ h => ⟨h.1, .inr ⟨hrequired, h.2⟩⟩
  · have hidle : switch.isRequired = false := by simpa using hrequired
    unfold commitOne
    rw [if_neg hrequired]
    exact ⟨rfl, .inl ⟨hidle, rfl⟩⟩

/-! ### Batches -/

section Batches

variable (hsep : Path.Separate paths) (hpaths : ∀ d ∈ switches, paths d.path)

include hsep hpaths

/-- **After a batch its required switches are spent.** -/
theorem keeps_commit_spent (s : Repository) :
    (commit switches).Keeps sure (fun result s' => result = .ok ()
      ∧ ∀ d ∈ switches, d.isRequired = true → Spent d s') s := by
  -- a switch is still to come, or it is spent already
  refine Keeps.forM (fun rest s' => rest ⊆ switches
    ∧ ∀ d ∈ switches, d.isRequired = true → d ∈ rest ∨ Spent d s')
    ⟨List.Subset.refl _, fun d hd _ => .inl hd⟩ ?_ fun s' h => ⟨rfl, fun d hd hrequired =>
      (h.2 d hd hrequired).resolve_left List.not_mem_nil⟩
  rintro switch rest s₁ ⟨hsubset, hinv⟩
  rw [List.cons_subset] at hsubset
  refine (keeps_commitOne_either switch s₁).mono ?_
  rintro _ s₂ ⟨rfl, hcommitted⟩
  refine ⟨hsubset.2, fun d hd hrequired => ?_⟩
  rcases hcommitted with ⟨hidle, rfl⟩ | ⟨-, hcommitted⟩
  · refine (hinv d hd hrequired).imp (fun hmem => (List.mem_cons.1 hmem).resolve_left ?_) id
    rintro rfl
    rw [hidle] at hrequired
    cases hrequired
  · rcases hinv d hd hrequired with hmem | hspent
    · rcases List.mem_cons.1 hmem with rfl | hmem
      · exact .inr hcommitted.spent
      · exact .inl hmem
    · exact .inr (hspent.committed hcommitted hsep (hpaths _ hsubset.1) (hpaths d hd))

/-- **A batch of spent switches** changes the texts of pointers only. -/
theorem keeps_commit_of_spent (hspent : ∀ d ∈ switches, d.isRequired = true → Spent d s) :
    (commit switches).Keeps sure (fun result s' => result = .ok ()
      ∧ ∀ q, (∀ d ∈ switches, d.isRequired = true → q ≠ Path.activeVersion d.path) →
        s'.query q = s.query q) s := by
  -- the loop keeps what is spent spent, and writes only pointers that have their number already
  refine Keeps.forM (fun rest s' => rest ⊆ switches
    ∧ (∀ d ∈ switches, d.isRequired = true → Spent d s')
    ∧ ∀ q, (∀ d ∈ switches, d.isRequired = true → q ≠ Path.activeVersion d.path) →
        s'.query q = s.query q)
    ⟨List.Subset.refl _, hspent, fun _ _ => rfl⟩ ?_ fun s' h => ⟨rfl, h.2.2⟩
  rintro switch rest s₁ ⟨hsubset, hspent, hsame⟩
  rw [List.cons_subset] at hsubset
  refine (keeps_commitOne_either switch s₁).mono ?_
  rintro _ s₂ ⟨rfl, ⟨-, rfl⟩ | ⟨hrequired, hcommitted⟩⟩
  · exact ⟨hsubset.2, hspent, hsame⟩
  · refine ⟨hsubset.2, fun d hd hd' => ?_, fun q hq => ?_⟩
    · exact (hspent d hd hd').committed hcommitted hsep (hpaths _ hsubset.1) (hpaths d hd)
    · rw [(hspent _ hsubset.1 hrequired).query_eq hcommitted (hq _ hsubset.1 hrequired)]
      exact hsame q hq

end Batches

/-- A required switch of a batch moves the pointer of its item, if no later one does. -/
theorem exists_pointedTo (hd : d ∈ switches) (hrequired : d.isRequired = true) :
    ∃ n, pointedTo d.path switches = some n := by
  have hmem : d ∈ switches.filter fun x => x.path = d.path ∧ x.isRequired = true :=
    List.mem_filter.2 ⟨hd, by simp [hrequired]⟩
  have hsome : (pointedTo d.path switches).isSome := by
    rw [pointedTo, Option.isSome_map, List.getLast?_isSome]
    exact List.ne_nil_of_mem hmem
  exact Option.isSome_iff_exists.1 hsome

/-- **Committing a batch twice is committing it once.** Where no call is refused, a batch of switches ends
well both times, and the second time leaves the same nodes with the same texts. The items may be in any state
and occur in the batch several times, as long as none of them stands above another one. -/
theorem commit_twice (hsep : Path.Separate fun p => ∃ d ∈ switches, d.path = p) (s : Repository) :
    let once := (commit switches).run answer s
    let twice := (commit switches).run answer once.2
    once.1 = .ok () ∧ twice.1 = .ok () ∧ twice.2.nodes = once.2.nodes := by
  intro once twice
  -- the first run leaves each switch spent, and the second one finds it so
  have hpaths : ∀ d ∈ switches, ∃ d' ∈ switches, d'.path = d.path := fun d hd => ⟨d, hd, rfl⟩
  obtain ⟨honce, hspent⟩ := Access.keeps_run_iff.1 (keeps_commit_spent hsep hpaths s)
  obtain ⟨htwice, hsame⟩ := Access.keeps_run_iff.1 (keeps_commit_of_spent hsep hpaths hspent)
  refine ⟨honce, htwice, SortedMap.ext fun q => ?_⟩
  rw [← query_eq_get?, ← query_eq_get?]
  by_cases hq : ∃ d ∈ switches, d.isRequired = true ∧ q = Path.activeVersion d.path
  · -- a pointer is told by the batch, whatever it was before
    obtain ⟨d, hd, hrequired, rfl⟩ := hq
    obtain ⟨n, hn⟩ := exists_pointedTo hd hrequired
    have hpointer : ∀ t : Repository, ((commit switches).run answer t).1 = .ok () →
        ((commit switches).run answer t).2.query (Path.activeVersion d.path) = some (toString n) := by
      intro t ht
      have hrun : (commit switches).run answerInTurn (t, [])
          = (.ok (), ((commit switches).run answer t).2, []) := by
        rw [Access.run_answerInTurn_nil, ht]
      have hquery := query_pointer_of_run_commit hsep hpaths ⟨d, hd, rfl⟩ hrun
      rw [hn] at hquery
      exact hquery
    rw [hpointer _ htwice, hpointer _ honce]
  · exact hsame q fun d hd hrequired heq => hq ⟨d, hd, hrequired, heq⟩

/-- An item is moved forwards and then back, a name below another item is no number, and a third item need not
be moved. Of the revisions of the first item one is removed, and the other one, which has zeros in front of its
number, is looked for elsewhere both times. -/
theorem commit_twice_back_and_forth :
    let s := Repository.memory ⟨SortedMap.ofList [("/a/versions/007", "x"), ("/a/versions/3", "y"),
      ("/b/versions/0", "z"), ("/b/versions/old", "z"), ("/c/active_version", "3")]⟩
    let switches : List PendingSwitch := [⟨"/a", 3, 9⟩, ⟨"/b", 0, 1⟩, ⟨"/a", 9, 8⟩, ⟨"/c", 3, 3⟩]
    let once := (commit switches).run answer s
    let twice := (commit switches).run answer once.2
    (Path.Separate fun p => ∃ d ∈ switches, d.path = p)
      ∧ once.2.children "/a/versions" = ["007"] ∧ once.2.query "/a/active_version" = some "8"
      ∧ once.1 = .ok () ∧ twice.1 = .ok () ∧ twice.2.nodes = once.2.nodes := by
  intro s switches once twice
  -- none of the three paths is above another one
  have hsep : Path.Separate fun p => ∃ d ∈ switches, d.path = p := by
    have hall : ∀ d ∈ switches, ∀ d' ∈ switches, ¬ d.path.IsAbove d'.path := by decide
    rintro p q ⟨d, hd, rfl⟩ ⟨d', hd', rfl⟩
    exact hall d hd d' hd'
  exact ⟨hsep, by decide +kernel, by decide +kernel, commit_twice hsep s⟩

end Item

end ClusterCatalog
