import Mathlib.Data.List.Infix
import ClusterCatalog.Tree.Path

/-!
# Separated paths

A repository keeps texts under flat keys; that one key stands above another one is read off the
characters alone. This module is about that reading:

* `Path.IsAbove p q` — `q` continues `p` after a `/`;
* `Path.Covers p q` — `q` is `p` or stands below it;
* `Path.Apart p q` — neither covers the other, so nothing stands at or below both
  (`Path.Apart.mono`).

Everything that happens to a versioned item happens strictly below its path, and a name without `/`
is read back from the path of a child (`Path.child_inj`). The two facts together keep items apart
that have different paths.
-/

namespace ClusterCatalog

namespace Path

/-- **A name** that can be a step of a path: it is not empty and contains no `/`. -/
def IsName (name : String) : Prop := name ≠ "" ∧ '/' ∉ name.toList

instance (name : String) : Decidable (IsName name) := inferInstanceAs (Decidable (_ ∧ _))

/-- **A path stands above another one** if the other one continues it after a `/`. -/
def IsAbove (p q : Path) : Prop := p.toList ++ ['/'] <+: q.toList

instance (p q : Path) : Decidable (p.IsAbove q) :=
  inferInstanceAs (Decidable (p.toList ++ ['/'] <+: q.toList))

/-- A path covers itself and what stands below it. -/
def Covers (p q : Path) : Prop := p = q ∨ p.IsAbove q

instance (p q : Path) : Decidable (p.Covers q) := inferInstanceAs (Decidable (_ ∨ _))

/-- **Two paths are apart** if neither covers the other. -/
def Apart (p q : Path) : Prop := ¬ p.Covers q ∧ ¬ q.Covers p

/-! ### Characters of a path -/

/-- A child is its parent, a slash, and its name. -/
@[simp] theorem toList_child (p : Path) (name : String) :
    (child p name).toList = p.toList ++ '/' :: name.toList := by
  simp [child]

/-- A text starts with another one if the characters do. -/
theorem startsWith_iff {text front : String} :
    startsWith text front = true ↔ front.toList <+: text.toList :=
  List.isPrefixOf_iff_prefix

/-- A path that does not end in `/` gets one before what stands below it. -/
theorem toList_below {p : Path} (h : p.toList.getLast? ≠ some '/') :
    (below p).toList = p.toList ++ ['/'] := by
  simp [below, h]

/-- A path is at the front of what stands below it. -/
theorem prefix_below (p : Path) : p.toList <+: (below p).toList := by
  unfold below
  split
  · exact List.prefix_rfl
  · rw [String.toList_append]
    exact List.prefix_append _ _

/-- The path of a child does not end with a slash. -/
theorem getLast?_child {p : Path} {name : String} (h : IsName name) :
    (child p name).toList.getLast? ≠ some '/' := by
  intro hlast
  have hne : name.toList ≠ [] := fun hnil => h.1 (String.toList_injective (by simpa using hnil))
  rw [toList_child, List.getLast?_append_of_ne_nil _ (by simp),
    List.getLast?_cons_of_ne_nil hne] at hlast
  exact h.2 (List.mem_of_getLast? hlast)

/-- What stands before the children of a child is its path and a slash. -/
theorem toList_below_child {p : Path} {name : String} (h : IsName name) :
    (below (child p name)).toList = (child p name).toList ++ ['/'] :=
  toList_below (getLast?_child h)

/-- What is found below a node is a child of it. -/
theorem below_child_append {p : Path} {node : String} (h : IsName node) (name : String) :
    below (child p node) ++ name = child (child p node) name := by
  rw [← String.toList_inj, String.toList_append, toList_below_child h, toList_child]
  simp

/-- A child has a path. -/
theorem child_ne_empty (p : Path) (name : String) : child p name ≠ "" := by
  intro h
  have hlist := congrArg String.toList h
  rw [toList_child] at hlist
  exact List.append_ne_nil_of_right_ne_nil _ (List.cons_ne_nil _ _) hlist

/-! ### Above, covering, apart -/

/-- **A path covers another one** if the one is the front of the other, both with a slash put behind. -/
theorem covers_iff {p q : Path} : p.Covers q ↔ p.toList ++ ['/'] <+: q.toList ++ ['/'] := by
  rw [List.prefix_concat_iff, List.append_left_inj, String.toList_inj]
  rfl

/-- What is above covers. -/
theorem IsAbove.covers {p q : Path} (h : p.IsAbove q) : p.Covers q := .inr h

/-- Every path covers itself. -/
theorem Covers.refl (p : Path) : p.Covers p := .inl rfl

/-- What is covered is passed on. -/
theorem Covers.trans {p q x : Path} (hpq : p.Covers q) (hqx : q.Covers x) : p.Covers x :=
  covers_iff.2 ((covers_iff.1 hpq).trans (covers_iff.1 hqx))

/-- What covers a path is above everything that the path is above. -/
theorem Covers.isAbove_of_isAbove {p q x : Path} (hpq : p.Covers q) (hqx : q.IsAbove x) :
    p.IsAbove x :=
  (covers_iff.1 hpq).trans hqx

/-- What is above a path is above everything that the path covers. -/
theorem IsAbove.trans_covers {p q x : Path} (hpq : p.IsAbove q) (hqx : q.Covers x) : p.IsAbove x := by
  rcases hqx with rfl | habove
  · exact hpq
  · exact hpq.covers.isAbove_of_isAbove habove

/-- Of two paths that cover the same one, one covers the other. -/
theorem Covers.total {p q x : Path} (hp : p.Covers x) (hq : q.Covers x) :
    p.Covers q ∨ q.Covers p := by
  rw [covers_iff] at hp hq
  rw [covers_iff, covers_iff]
  exact List.prefix_or_prefix_of_prefix hp hq

/-- No path is above itself. -/
theorem IsAbove.ne {p q : Path} (h : p.IsAbove q) : p ≠ q := by
  rintro rfl
  have hlen := List.IsPrefix.length_le h
  rw [List.length_append] at hlen
  exact absurd hlen (Nat.not_succ_le_self _)

/-- So what is below does not cover what is above. -/
theorem IsAbove.not_covers {p q : Path} (h : p.IsAbove q) : ¬ q.Covers p := fun hq =>
  (hq.isAbove_of_isAbove h).ne rfl

/-- To be apart goes both ways. -/
theorem Apart.symm {p q : Path} (h : p.Apart q) : q.Apart p := ⟨h.2, h.1⟩

/-- **What stands at or below paths that are apart is apart.** -/
theorem Apart.mono {p q x y : Path} (h : p.Apart q) (hx : p.Covers x) (hy : q.Covers y) :
    x.Apart y := by
  constructor
  · intro hxy
    exact (Covers.total (hx.trans hxy) hy).elim h.1 h.2
  · intro hyx
    exact (Covers.total hx (hy.trans hyx)).elim h.1 h.2

/-- **Paths are separate** if none of them is above another one. -/
def Separate (paths : Path → Prop) : Prop := ∀ p q, paths p → paths q → ¬ p.IsAbove q

/-- What is at or below one of separate paths tells which one. -/
theorem Separate.eq_of_covers {paths : Path → Prop} (h : Separate paths) {p q x : Path}
    (hp : paths p) (hq : paths q) (hpx : p.Covers x) (hqx : q.Covers x) : p = q := by
  rcases Covers.total hpx hqx with (heq | habove) | (heq | habove)
  · exact heq
  · exact absurd habove (h p q hp hq)
  · exact heq.symm
  · exact absurd habove (h q p hq hp)

/-! ### Children -/

/-- A path is above its children. -/
theorem isAbove_child (p : Path) (name : String) : p.IsAbove (child p name) :=
  ⟨name.toList, by simp⟩

/-- The last slash divides a path in one way only. -/
theorem append_slash_inj {l₁ l₂ r₁ r₂ : List Char} (h₁ : '/' ∉ r₁) (h₂ : '/' ∉ r₂)
    (h : l₁ ++ '/' :: r₁ = l₂ ++ '/' :: r₂) : l₁ = l₂ ∧ r₁ = r₂ := by
  -- if one front is longer, the slash after the other one falls into the name after it
  rcases List.append_eq_append_iff.1 h with ⟨m, rfl, hm⟩ | ⟨m, rfl, hm⟩
  · cases m with
    | nil => exact ⟨by simp, by simpa using hm⟩
    | cons c cs =>
      obtain ⟨rfl, hr⟩ := List.cons_eq_cons.1 hm
      exact absurd (hr ▸ by simp : '/' ∈ r₁) h₁
  · cases m with
    | nil => exact ⟨by simp, by simpa using hm.symm⟩
    | cons c cs =>
      obtain ⟨rfl, hr⟩ := List.cons_eq_cons.1 hm
      exact absurd (hr ▸ by simp : '/' ∈ r₂) h₂

/-- **A child tells its parent and its name**, if the name contains no `/`. -/
theorem child_inj {p q : Path} {a b : String} (ha : '/' ∉ a.toList) (hb : '/' ∉ b.toList)
    (h : child p a = child q b) : p = q ∧ a = b := by
  have hlist := congrArg String.toList h
  rw [toList_child, toList_child] at hlist
  obtain ⟨hp, hn⟩ := append_slash_inj ha hb hlist
  exact ⟨String.toList_injective hp, String.toList_injective hn⟩

/-- Siblings are apart. -/
theorem apart_child {p : Path} {a b : String} (ha : '/' ∉ a.toList) (hb : '/' ∉ b.toList)
    (hne : a ≠ b) : (child p a).Apart (child p b) := by
  have aux : ∀ {a b : String}, '/' ∉ b.toList → (child p a).Covers (child p b) → a = b := by
    intro a b hb hcov
    rw [covers_iff, toList_child, toList_child, List.append_assoc, List.append_assoc,
      List.prefix_append_right_inj, List.cons_append, List.cons_append,
      List.prefix_cons_inj] at hcov
    -- the shorter name ends where a slash would follow, and the longer one has none
    rcases List.prefix_concat_iff.1 hcov with h | h
    · exact String.toList_injective (List.append_cancel_right h)
    · exact absurd (h.subset (by simp)) hb
  exact ⟨fun h => hne (aux hb h), fun h => hne (aux ha h).symm⟩

/-- The name of a child is what follows the front, if that is a name. -/
theorem childName?_eq_some_iff {front path : String} {name : String} :
    childName? front path = some name ↔ IsName name ∧ path = front ++ name := by
  unfold childName?
  split
  · -- what is left after the front is the name, character by character
    rename_i hfront
    obtain ⟨rest, hrest⟩ := startsWith_iff.1 hfront
    have hdrop : path.toList.drop front.toList.length = rest := by rw [← hrest]; simp
    simp only [hdrop]
    -- the path is the front and the name exactly if the name is what is left
    have hpath : path = front ++ name ↔ rest = name.toList := by
      rw [← String.toList_inj, ← hrest, String.toList_append, List.append_cancel_left_eq]
    rw [hpath]
    constructor
    · -- the name is what was left, so it is neither empty nor has a slash
      intro h
      split at h
      · rename_i hname
        obtain rfl := Option.some.inj h
        refine ⟨⟨fun hempty => hname.1 ?_, by simpa using hname.2⟩, by simp⟩
        simpa using congrArg String.toList hempty
      · cases h
    · rintro ⟨hname, rfl⟩
      rw [if_pos ⟨fun hnil => hname.1 (String.toList_injective (by simpa using hnil)), hname.2⟩,
        String.ofList_toList]
  · rename_i hfront
    constructor
    · intro h; cases h
    · rintro ⟨-, rfl⟩
      exact absurd (startsWith_iff.2 (by simp)) hfront

/-! ### Ancestors -/

/-- The parts before slashes, put behind what was seen already, are the fronts that a slash follows. -/
private theorem mem_partsBeforeSlash_iff {x : List Char} {cs : List Char} :
    ∀ {seen : List Char}, x ∈ partsBeforeSlash seen cs ↔
      x ≠ [] ∧ ∃ l r, cs = l ++ '/' :: r ∧ x = seen ++ l := by
  induction cs with
  | nil => intro seen; simp [partsBeforeSlash]
  | cons c cs ih =>
    intro seen
    have hlater : x ∈ partsBeforeSlash (seen ++ [c]) cs ↔
        x ≠ [] ∧ ∃ l r, cs = l ++ '/' :: r ∧ x = seen ++ c :: l := by
      rw [ih]; simp
    -- the text is cut at the first character, if that is a slash, or at a later one
    have hsplit : (x ≠ [] ∧ ∃ l r, c :: cs = l ++ '/' :: r ∧ x = seen ++ l) ↔
        (c = '/' ∧ x ≠ [] ∧ x = seen) ∨ x ∈ partsBeforeSlash (seen ++ [c]) cs := by
      rw [hlater]
      constructor
      · rintro ⟨hx, l, r, hl, rfl⟩
        cases l with
        | nil => exact .inl ⟨by simpa using (List.cons_eq_cons.1 hl).1, hx, by simp⟩
        | cons d l =>
          obtain ⟨rfl, hcs⟩ := List.cons_eq_cons.1 hl
          exact .inr ⟨hx, l, r, hcs, rfl⟩
      · rintro (⟨rfl, hx, rfl⟩ | ⟨hx, l, r, rfl, rfl⟩)
        · exact ⟨hx, [], cs, rfl, by simp⟩
        · exact ⟨hx, c :: l, r, rfl, rfl⟩
    rw [hsplit, partsBeforeSlash]
    split
    · rename_i h
      rw [List.mem_cons]
      refine or_congr_left ⟨fun hx => ⟨h.1, hx ▸ h.2, hx⟩, fun hx => hx.2.2⟩
    · rename_i h
      refine ⟨.inr, fun hx => hx.resolve_left ?_⟩
      rintro ⟨hc, hne, rfl⟩
      exact h ⟨hc, hne⟩

/-- **The ancestors of a path are the paths above it**, without the empty one. -/
theorem mem_ancestors_iff {a p : Path} : a ∈ ancestors p ↔ a ≠ "" ∧ a.IsAbove p := by
  rw [ancestors, List.mem_map]
  -- an ancestor is what is left of the path before one of its slashes, unless that is nothing
  constructor
  · rintro ⟨x, hx, rfl⟩
    obtain ⟨hne, l, r, hp, rfl⟩ := mem_partsBeforeSlash_iff.1 hx
    refine ⟨fun hempty => hne ?_, r, ?_⟩
    · simpa using congrArg String.toList hempty
    · simp [hp]
  · rintro ⟨hne, r, hr⟩
    refine ⟨a.toList, mem_partsBeforeSlash_iff.2 ⟨?_, a.toList, r, ?_, rfl⟩, String.ofList_toList⟩
    · intro hnil
      exact hne (String.toList_injective (by simpa using hnil))
    · rw [← hr]; simp

end Path

end ClusterCatalog
