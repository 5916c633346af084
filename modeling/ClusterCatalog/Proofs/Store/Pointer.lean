import ClusterCatalog.Proofs.Store.Frame

/-!
# Moving the pointer of an item

Committing a switch is a write of the pointer and then any number of removals, some of which may be
refused. What the removals have in common is enough for most of what is to be known afterwards
(`Item.Moved`): the pointer names the next revision, whatever is gone was at or below a revision with a
lower number, and everything else is left alone.

`Item.keeps_commitOne_cases` is the law of committing a switch that follows from this. What becomes of the
item is then read off `Item.Moved` without looking at the calls again: its node stays
(`Item.Moved.node`), and so do its revisions from the next one on (`Item.Moved.query_version`); there are
no new ones (`Item.Moved.numbered`, `Item.Moved.present`).
-/

namespace ClusterCatalog

namespace Item

open Plan Repository

variable {switch : PendingSwitch} {r r' s : Repository} {name : String} {n : Nat}

/-- What names a revision is a name. -/
theorem isName_of_revisionOf? (h : revisionOf? name = some n) : Path.IsName name := by
  refine ⟨text_ne_empty_of_revisionOf? h, fun hslash => ?_⟩
  unfold revisionOf? at h
  obtain ⟨⟨-, hdigits, -⟩, -⟩ := Option.ite_none_right_eq_some.1 h
  rw [List.all_eq_true] at hdigits
  -- the slash is not the sign in front, so it would be one of the digits
  have hdigit : ('/' : Char).isDigit = true := by
    apply hdigits
    split
    · rename_i digits hsign
      rw [hsign] at hslash
      exact (List.mem_cons.1 hslash).resolve_left (by decide)
    · exact hslash
  exact absurd hdigit (by decide)

/-- **The pointer of an item has been moved.** Each other node is left alone, or it is gone with a revision
that has a lower number. -/
structure Moved (switch : PendingSwitch) (r r' : Repository) : Prop where
  pointer : text r' (Path.activeVersion switch.path) = toString switch.next
  others : ∀ q, q ≠ Path.activeVersion switch.path →
    LeftAlone (· = Path.activeVersion switch.path) r r' q
      ∨ (∃ n, n < switch.next ∧ (Path.version switch.path n).Covers q) ∧ r'.query q = none

/-- Writing the pointer moves it. -/
theorem moved_persist (switch : PendingSwitch) (s : Repository) :
    Moved switch s (s.persist (Path.activeVersion switch.path) (toString switch.next)) := by
  refine ⟨text_persist_self _, fun q hq => .inl ?_⟩
  exact (s.query_persist_eq _ _ hq).imp id fun ⟨habove, hnone, hempty⟩ =>
    ⟨⟨_, rfl, habove⟩, hnone, hempty⟩

/-- A pointer that has been moved stays so when a revision with a lower number is removed. -/
theorem Moved.delete_version (h : Moved switch r r') (hn : n < switch.next) :
    Moved switch r (r'.delete (Path.version switch.path n)) := by
  refine ⟨?_, fun q hq => ?_⟩
  · rw [text_delete_version_activeVersion]
    exact h.pointer
  · rw [LeftAlone, query_delete_version]
    split
    · rename_i hcovers
      exact .inr ⟨⟨n, hn, hcovers⟩, rfl⟩
    · exact h.others q hq

/-- **Pruning** ends well, whatever is refused and whatever stands below the revisions. Where the pointer
has just been written, it has been moved in the end. -/
theorem keeps_prune_moved {reasons : Error → Prop} (switch : PendingSwitch) (s : Repository) :
    (prune switch).Keeps (terms (fun _ _ => True) reasons)
      (fun result s' => result = .ok () ∧ Moved switch s s')
      (s.persist (Path.activeVersion switch.path) (toString switch.next)) := by
  have hwritten := moved_persist switch s
  -- what is removed has a lower number each time, and a removal that is refused changes nothing
  refine keeps_prune (fun _ s' => Moved switch s s') (fun _ => trivial) (fun _ => trivial)
    (fun _ _ => ⟨rfl, hwritten⟩) (fun _ _ _ _ => hwritten) ?_ fun _ h => ⟨rfl, h⟩
  intro n rest s' hn h
  exact ⟨trivial, h.delete_version hn, fun _ _ => ⟨fun _ => trivial, h⟩⟩

/-- **Committing a switch** fails for the reason for which the pointer is not written, does nothing if the
switch is not required, and moves the pointer otherwise. -/
theorem keeps_commitOne_cases {reasons : Error → Prop} {post : Except Failure Unit → Repository → Prop}
    (hrefused : ∀ e, reasons e → post (.error (.error e)) s)
    (hidle : switch.isRequired = false → post (.ok ()) s)
    (hmoved : ∀ s', switch.isRequired = true → Moved switch s s' → post (.ok ()) s') :
    (commitOne switch).Keeps (terms (fun _ _ => True) reasons) post s := by
  unfold commitOne
  -- only a required switch writes; pruning after it cannot fail
  split
  · rename_i hrequired
    rw [keeps_bind, Access.keeps_persist]
    refine ⟨trivial, (keeps_prune_moved switch s).mono ?_, hrefused⟩
    rintro _ s' ⟨rfl, h⟩
    exact hmoved s' hrequired h
  · rename_i hrequired
    exact hidle (by simpa using hrequired)

/-- **A batch** ends well where no call is refused. -/
theorem keeps_commit_ends_well (switches : List PendingSwitch) (s : Repository) :
    (commit switches).Keeps sure (fun result _ => result = .ok ()) s := by
  refine Keeps.forM (fun _ _ => True) trivial (fun switch rest s _ => ?_) fun _ _ => rfl
  exact keeps_commitOne_cases (fun _ he => he.elim) (fun _ => trivial) fun _ _ _ => trivial

/-! ### What becomes of the item -/

/-- The node of the item stays. -/
theorem Moved.node (h : Moved switch r r') (hnode : (r.query switch.path).isSome) :
    (r'.query switch.path).isSome := by
  rcases h.others _ (Path.isAbove_activeVersion switch.path).ne with
    (hsame | ⟨-, -, hempty⟩) | ⟨⟨n, -, hcovers⟩, -⟩
  · rw [hsame]
    exact hnode
  · rw [hempty]
    rfl
  · exact absurd hcovers (Path.isAbove_version switch.path n).not_covers

/-- A node below the revisions is the same, unless it is a lower revision that is gone. -/
theorem Moved.query_child (h : Moved switch r r') (hname : Path.IsName name) :
    r'.query (Path.child (Path.versions switch.path) name)
        = r.query (Path.child (Path.versions switch.path) name)
      ∨ (∃ n, n < switch.next ∧ name = toString n)
        ∧ r'.query (Path.child (Path.versions switch.path) name) = none := by
  have hapart := Path.apart_activeVersion_version switch.path name
  have hne : Path.child (Path.versions switch.path) name ≠ Path.activeVersion switch.path :=
    fun heq => hapart.1 (heq ▸ .refl _)
  -- a child of the node of revisions is not above the pointer, so it was kept or pruned
  rcases h.others _ hne with (hsame | ⟨⟨_, rfl, habove⟩, -⟩) | ⟨⟨n, hn, hcovers⟩, hnone⟩
  · exact .inl hsame
  · exact absurd habove.covers hapart.2
  · refine .inr ⟨⟨n, hn, ?_⟩, hnone⟩
    by_contra hne
    exact (Path.apart_version (isName_toString n) hname (Ne.symm hne)).1 hcovers

/-- **The revisions from the next one on are kept**, by whatever numerals they are named. -/
theorem Moved.query_revision (h : Moved switch r r') (hnext : switch.next ≤ maxRevision)
    (hname : revisionOf? name = some n) (hn : switch.next ≤ n) :
    r'.query (Path.child (Path.versions switch.path) name)
      = r.query (Path.child (Path.versions switch.path) name) := by
  rcases h.query_child (isName_of_revisionOf? hname) with hsame | ⟨⟨m, hm, rfl⟩, -⟩
  · exact hsame
  · -- the numeral of a lower number names that number only
    rw [revisionOf?_toString (Nat.le_trans (Nat.le_of_lt hm) hnext)] at hname
    obtain rfl := Option.some.inj hname
    exact absurd hm (Nat.not_lt_of_le hn)

theorem Moved.query_version (h : Moved switch r r') (hn : switch.next ≤ n) :
    r'.query (Path.version switch.path n) = r.query (Path.version switch.path n) := by
  rcases h.query_child (isName_toString n) with hsame | ⟨⟨m, hm, heq⟩, -⟩
  · exact hsame
  · obtain rfl := toString_inj heq
    exact absurd hm (Nat.not_lt_of_le hn)

/-- No node comes to be below the revisions. -/
theorem Moved.isSome_child (h : Moved switch r r') (hname : Path.IsName name)
    (hsome : (r'.query (Path.child (Path.versions switch.path) name)).isSome) :
    (r.query (Path.child (Path.versions switch.path) name)).isSome := by
  rcases h.query_child hname with hsame | ⟨-, hnone⟩
  · rw [← hsame]
    exact hsome
  · rw [hnone] at hsome
    cases hsome

theorem Moved.numbered (h : Moved switch r r') (hnumbered : Numbered r switch.path) :
    Numbered r' switch.path := fun name hname hsome =>
  hnumbered name hname (h.isSome_child hname hsome)

theorem Moved.present (h : Moved switch r r') (hpresent : Present r' switch.path n) :
    Present r switch.path n := h.isSome_child (isName_toString n) hpresent

end Item

end ClusterCatalog
