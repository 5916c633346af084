import Mathlib.Data.Nat.Digits.Defs
import ClusterCatalog.Proofs.Tree.Lookup
import ClusterCatalog.Store.Item

/-!
# The nodes of an item

A versioned item occupies the nodes `versions/{n}` and `active_version` below its path. The names of
the revisions are numerals, so these nodes are told apart by the number (`Path.version_inj`), never
cover each other (`Path.apart_version`), and none of them belongs to another item.

* `Item.text` — the text of a node, where a node that is only passed through counts as none;
* `Item.Present` — a revision is there;
* `Item.Numbered` — the revisions have canonical numerals as names, which writing and removing
  revisions and moving pointers preserves.
-/

namespace ClusterCatalog

/-! ### Numerals -/

theorem toList_toString (n : Nat) : (toString n).toList = Nat.toDigits 10 n := by
  rw [Nat.toString_eq_ofList_toDigits, String.toList_ofList]

theorem isDigit_of_mem_toString {n : Nat} {c : Char} (h : c ∈ (toString n).toList) :
    c.isDigit = true := by
  rw [toList_toString] at h
  exact Nat.isDigit_of_mem_toDigits (by decide) (by decide) h

/-- A numeral is a name. -/
theorem isName_toString (n : Nat) : Path.IsName (toString n) := by
  refine ⟨fun hempty => ?_, fun hslash => ?_⟩
  · have := congrArg String.toList hempty
    rw [toList_toString] at this
    exact Nat.toDigits_ne_nil this
  · exact absurd (isDigit_of_mem_toString hslash) (by decide)

/-- **A numeral names its number**, if that is in range. -/
theorem revisionOf?_toString {n : Nat} (h : n ≤ maxRevision) :
    revisionOf? (toString n) = some n := by
  have hall : ∀ c ∈ (toString n).toList, c.isDigit = true := fun c hc =>
    isDigit_of_mem_toString hc
  have hvalue : Nat.ofDigitChars 10 (toString n).toList 0 = n := by
    rw [toList_toString, Nat.ofDigitChars_ten_toDigits]
  have hne : (toString n).toList ≠ [] := by
    rw [toList_toString]
    exact Nat.toDigits_ne_nil
  unfold revisionOf?
  -- a numeral has no sign in front, so it is read as digits
  revert hall hvalue hne
  generalize (toString n).toList = digits
  intro hall hvalue hne
  split
  · exact absurd (hall '+' List.mem_cons_self) (by decide)
  · simp only [hvalue]
    exact if_pos ⟨hne, List.all_eq_true.2 hall, h⟩

/-- A number that a text names is in range. -/
theorem le_of_revisionOf? {name : String} {n : Nat} (h : revisionOf? name = some n) : n ≤ maxRevision := by
  unfold revisionOf? at h
  obtain ⟨⟨-, -, hle⟩, hvalue⟩ := Option.ite_none_right_eq_some.1 h
  exact Option.some.inj hvalue ▸ hle

theorem toString_inj {m n : Nat} (h : toString m = toString n) : m = n := by
  have hlist := congrArg String.toList h
  rw [toList_toString, toList_toString] at hlist
  rw [← Nat.ofDigitChars_ten_toDigits (n := m), hlist, Nat.ofDigitChars_ten_toDigits]

/-! ### The nodes of an item -/

namespace Path

variable {p q : Path}

theorem isName_activeVersionNode : IsName activeVersionNode := by decide

theorem isName_versionsNode : IsName versionsNode := by decide

theorem isAbove_activeVersion (p : Path) : p.IsAbove (activeVersion p) := isAbove_child _ _

theorem isAbove_versions (p : Path) : p.IsAbove (versions p) := isAbove_child _ _

theorem isAbove_version (p : Path) (n : Nat) : p.IsAbove (version p n) :=
  (isAbove_versions p).covers.isAbove_of_isAbove (isAbove_child _ _)

/-- What is found below the revisions of an item is a child of the node that holds them. -/
theorem below_versions (p : Path) (name : String) :
    below (versions p) ++ name = child (versions p) name := below_child_append isName_versionsNode name

theorem activeVersion_inj (h : activeVersion p = activeVersion q) : p = q :=
  (child_inj isName_activeVersionNode.2 isName_activeVersionNode.2 h).1

theorem version_inj {m n : Nat} (h : version p m = version q n) : p = q ∧ m = n := by
  obtain ⟨hp, hn⟩ := child_inj (isName_toString m).2 (isName_toString n).2 h
  exact ⟨(child_inj isName_versionsNode.2 isName_versionsNode.2 hp).1, toString_inj hn⟩

theorem version_ne_activeVersion {n : Nat} : version p n ≠ activeVersion q := by
  intro h
  -- a numeral has no letters
  have hname := (child_inj (isName_toString n).2 isName_activeVersionNode.2 h).2
  exact absurd (isDigit_of_mem_toString (c := 'a') (n := n) (by rw [hname]; decide)) (by decide)

/-- The pointer of an item and what is at or below its revisions are apart. -/
theorem apart_activeVersion_versions (p : Path) : (activeVersion p).Apart (versions p) :=
  apart_child isName_activeVersionNode.2 isName_versionsNode.2 (by decide)

/-- The nodes below the revisions are apart if their names differ. -/
theorem apart_version {a b : String} (ha : IsName a) (hb : IsName b) (hne : a ≠ b) :
    (child (versions p) a).Apart (child (versions p) b) :=
  apart_child ha.2 hb.2 hne

theorem apart_activeVersion_version (p : Path) (name : String) :
    (activeVersion p).Apart (child (versions p) name) :=
  (apart_activeVersion_versions p).mono (.refl _) (isAbove_child _ _).covers

theorem not_version_covers_activeVersion {n : Nat} :
    ¬ (version p n).Covers (activeVersion p) := (apart_activeVersion_version p (toString n)).2

theorem covers_version_iff {m n : Nat} : (version p m).Covers (version p n) ↔ m = n := by
  constructor
  · intro h
    by_contra hne
    exact (apart_version (isName_toString m) (isName_toString n)
      fun heq => hne (toString_inj heq)).1 h
  · rintro rfl
    exact .refl _

end Path

namespace Item

open Repository

variable {r : Repository} {p q : Path} {n : Nat} {v : String} {paths : Path → Prop}

/-! ### Texts -/

/-- The text of a node, empty if there is no node. -/
def text (r : Repository) (path : Path) : String := (r.query path).getD ""

theorem revisionOf?_empty : revisionOf? "" = none := by decide

theorem text_persist_self (x : Path) : text (r.persist x v) x = v := by
  rw [text, query_persist_self]
  rfl

/-- A write changes the text of one node only. -/
theorem text_persist {x y : Path} (hne : y ≠ x) : text (r.persist x v) y = text r y := by
  unfold text
  rcases r.query_persist_eq x v hne with h | ⟨-, hnone, hsome⟩
  · rw [h]
  · rw [hnone, hsome]
    rfl

theorem text_ne_empty_of_revisionOf? {t : String} (h : revisionOf? t = some n) : t ≠ "" := by
  rintro rfl
  rw [revisionOf?_empty] at h
  cases h

theorem query_delete_version (n : Nat) :
    (r.delete (Path.version p n)).query q
      = if (Path.version p n).Covers q then none else r.query q :=
  r.query_delete_child _ (isName_toString n)

/-- A text that is left after a revision was removed was there before. -/
theorem text_delete_version {x : Path} (hne : text (r.delete (Path.version p n)) x ≠ "") :
    text (r.delete (Path.version p n)) x = text r x := by
  unfold text at hne ⊢
  rw [query_delete_version] at hne ⊢
  split
  · rename_i hcovers
    rw [if_pos hcovers] at hne
    exact absurd rfl hne
  · rfl

/-- The pointer stays when a revision is removed. -/
theorem text_delete_version_activeVersion (p : Path) (n : Nat) :
    text (r.delete (Path.version p n)) (Path.activeVersion p) = text r (Path.activeVersion p) := by
  unfold text
  rw [query_delete_version, if_neg Path.not_version_covers_activeVersion]

theorem text_of_nodes_eq_empty (h : r.nodes = ∅) (x : Path) : text r x = "" := by
  rw [text, query_of_nodes_eq_empty h]
  rfl

/-! ### Numbered revisions -/

/-- A single path is separate from the others. -/
theorem separate_eq (path : Path) : Path.Separate (· = path) := by
  rintro p q rfl rfl habove
  exact habove.ne rfl

/-- **The revisions of an item are numbered**: below it there are nodes with canonical numerals
only. -/
def Numbered (r : Repository) (path : Path) : Prop :=
  ∀ name, Path.IsName name → (r.query (Path.child (Path.versions path) name)).isSome →
    ∃ n, n ≤ maxRevision ∧ name = toString n

/-- Whether an item has a revision. -/
def Present (r : Repository) (path : Path) (n : Nat) : Prop :=
  (r.query (Path.version path n)).isSome

theorem mem_children_versions_iff {name : String} :
    name ∈ r.children (Path.versions p)
      ↔ Path.IsName name ∧ (r.query (Path.child (Path.versions p) name)).isSome := by
  rw [Repository.mem_children_iff, Path.below_versions]

theorem Numbered.le (h : Numbered r p) (hn : Present r p n) : n ≤ maxRevision := by
  obtain ⟨m, hm, heq⟩ := h _ (isName_toString n) hn
  exact toString_inj heq ▸ hm

theorem not_present_of_nodes_eq_empty (h : r.nodes = ∅) : ¬ Present r p n := by
  rw [Present, query_of_nodes_eq_empty h]
  exact Bool.false_ne_true

theorem numbered_of_nodes_eq_empty (h : r.nodes = ∅) (p : Path) : Numbered r p := by
  intro name _ hsome
  rw [query_of_nodes_eq_empty h] at hsome
  cases hsome

/-- Among separate paths, a write below an item creates no node at the revisions of another one. -/
theorem eq_of_isAbove_of_separate (hsep : Path.Separate paths) (hp : paths p) (hq : paths q)
    {name : String} {x : Path} (hx : p.Covers x)
    (habove : (Path.child (Path.versions q) name).IsAbove x) : q = p := by
  refine hsep.eq_of_covers hq hp ?_ hx
  exact ((Path.isAbove_versions q).covers.trans (Path.isAbove_child _ _).covers).trans habove.covers

/-- Writing a revision of one item leaves the nodes of all items numbered. -/
theorem Numbered.persist_version (hsep : Path.Separate paths) (hp : paths p) (hq : paths q)
    (h : Numbered r q) (hn : n ≤ maxRevision) : Numbered (r.persist (Path.version p n) v) q := by
  intro name hname hsome
  -- the node that was written has a number, and nodes that were there had one
  by_cases heq : Path.child (Path.versions q) name = Path.version p n
  · exact ⟨n, hn, (Path.child_inj hname.2 (isName_toString n).2 heq).2⟩
  · rcases r.query_persist_eq (Path.version p n) v heq with hold | ⟨habove, -, -⟩
    · exact h name hname (hold ▸ hsome)
    · -- a node that the write creates is above the revision, and the other revisions are not
      obtain rfl := eq_of_isAbove_of_separate hsep hp hq (Path.isAbove_version p n).covers habove
      have hne : name ≠ toString n := fun hname => heq (by rw [hname]; rfl)
      exact absurd habove.covers (Path.apart_version hname (isName_toString n) hne).1

/-- So does writing a pointer. -/
theorem Numbered.persist_pointer (hsep : Path.Separate paths) (hp : paths p) (hq : paths q)
    (h : Numbered r q) : Numbered (r.persist (Path.activeVersion p) v) q := by
  intro name hname hsome
  by_cases heq : Path.child (Path.versions q) name = Path.activeVersion p
  · -- the parent of the pointer would be the node that holds the revisions of `q`
    have hpath := (Path.child_inj hname.2 Path.isName_activeVersionNode.2 heq).1
    exact absurd (hpath ▸ Path.isAbove_versions q) (hsep q p hq hp)
  · rcases r.query_persist_eq (Path.activeVersion p) v heq with hold | ⟨habove, -, -⟩
    · exact h name hname (hold ▸ hsome)
    · obtain rfl := eq_of_isAbove_of_separate hsep hp hq (Path.isAbove_activeVersion p).covers habove
      exact absurd habove.covers (Path.apart_activeVersion_version q name).2

theorem Numbered.delete_version (h : Numbered r q) : Numbered (r.delete (Path.version p n)) q := by
  intro name hname hsome
  rw [query_delete_version] at hsome
  split at hsome
  · cases hsome
  · exact h name hname hsome

/-! ### The revisions that are there -/

variable {m : Nat}

theorem present_persist_version :
    Present (r.persist (Path.version p n) v) p m ↔ m = n ∨ Present r p m := by
  unfold Present
  by_cases hm : m = n
  · subst hm
    simp
  · rw [r.query_persist_of_not_covers _ _ fun h => hm (Path.covers_version_iff.1 h)]
    exact (or_iff_right hm).symm

theorem present_persist_pointer :
    Present (r.persist (Path.activeVersion p) v) p m ↔ Present r p m := by
  unfold Present
  rw [r.query_persist_of_not_covers _ _ Path.not_version_covers_activeVersion]

/-- Exactly the revision that was removed is gone. -/
theorem present_delete_version :
    Present (r.delete (Path.version p n)) p m ↔ m ≠ n ∧ Present r p m := by
  unfold Present
  rw [query_delete_version]
  by_cases hm : m = n
  · subst hm
    simp [Path.Covers.refl]
  · rw [if_neg fun h => hm (Path.covers_version_iff.1 h).symm]
    exact (and_iff_right hm).symm

end Item

end ClusterCatalog
