import ClusterCatalog.Proofs.Tree.Separation

/-!
# Paths of names

A path that is put together from names (`Path.ofNames`) can be taken apart again, because no name
contains a `/`. So what stands above what is read off the lists of names: a path covers another one if
its names are the first names of the other one (`Path.ofNames_covers_iff`). Whether paths of a layout
are apart is then a question about lists, which is decided by looking at them.
-/

namespace ClusterCatalog

namespace Path

variable {l m : List String}

/-- A path covers a child if it is the child or covers the parent. -/
theorem covers_child_iff {p q : Path} {name : String} (hname : '/' ∉ name.toList) :
    p.Covers (child q name) ↔ p = child q name ∨ p.Covers q := by
  constructor
  · rintro (heq | habove)
    · exact .inl heq
    -- both stand above the child, so one of them covers the other
    refine .inr ?_
    rcases Covers.total habove.covers (isAbove_child q name).covers with h | rfl | hq
    · exact h
    · exact .refl _
    · -- what follows `q` in `p` would be the beginning of the name, with a slash after it
      obtain ⟨rest, hrest⟩ := hq
      have hfront : rest ++ ['/'] <+: name.toList := by
        have hprefix : p.toList ++ ['/'] <+: (child q name).toList := habove
        rw [toList_child, ← hrest, List.append_assoc, List.append_assoc,
          List.prefix_append_right_inj, List.cons_append, List.prefix_cons_inj] at hprefix
        exact hprefix
      exact absurd (hfront.subset (by simp)) hname
  · rintro (rfl | hcovers)
    · exact .refl _
    · exact hcovers.trans (isAbove_child _ _).covers

/-- The path of names, from the root downwards. -/
def ofNames (names : List String) : Path := names.foldl child ""

/-- One more name leads to a child. -/
theorem ofNames_concat (names : List String) (name : String) :
    ofNames (names ++ [name]) = child (ofNames names) name := List.foldl_concat ..

/-- Only no names lead to no path. -/
theorem ofNames_eq_empty_iff : ofNames l = "" ↔ l = [] := by
  rcases l.eq_nil_or_concat' with rfl | ⟨init, name, rfl⟩
  · exact ⟨fun _ => rfl, fun _ => rfl⟩
  · rw [ofNames_concat]
    exact ⟨fun h => absurd h (child_ne_empty _ _), fun h => by simp at h⟩

/-- A path of names is that of a child, whose name is the last one. -/
theorem exists_ofNames_eq_child (hne : l ≠ []) (hl : ∀ name ∈ l, IsName name) :
    ∃ parent name, IsName name ∧ ofNames l = child parent name := by
  rcases l.eq_nil_or_concat' with rfl | ⟨init, name, rfl⟩
  · exact absurd rfl hne
  · exact ⟨ofNames init, name, hl name (by simp), ofNames_concat init name⟩

/-- **A path tells its names.** -/
theorem ofNames_inj (hl : ∀ name ∈ l, IsName name) (hm : ∀ name ∈ m, IsName name)
    (h : ofNames l = ofNames m) : l = m := by
  induction l using List.reverseRecOn generalizing m with
  | nil => exact (ofNames_eq_empty_iff.1 h.symm).symm
  | append_singleton l a ih =>
    rcases m.eq_nil_or_concat' with rfl | ⟨m, b, rfl⟩
    · exact ofNames_eq_empty_iff.1 h
    · rw [List.forall_mem_append, List.forall_mem_singleton] at hl hm
      rw [ofNames_concat, ofNames_concat] at h
      obtain ⟨hpath, rfl⟩ := child_inj hl.2.2 hm.2.2 h
      rw [ih hl.1 hm.1 hpath]

/-- **A path covers those that its names are the first names of.** -/
theorem ofNames_covers_iff (hl : ∀ name ∈ l, IsName name) (hm : ∀ name ∈ m, IsName name) :
    (ofNames l).Covers (ofNames m) ↔ l <+: m := by
  -- by induction on the lower path from its end: a path covers a child if it is the child, or covers
  -- its parent
  induction m using List.reverseRecOn with
  | nil =>
    rw [List.prefix_nil, ← ofNames_eq_empty_iff]
    refine ⟨?_, fun h => .inl h⟩
    rintro (h | habove)
    · exact h
    · exact absurd (List.prefix_nil.1 habove) (by simp)
  | append_singleton m b ih =>
    have hm' := hm
    rw [List.forall_mem_append, List.forall_mem_singleton] at hm'
    rw [List.prefix_concat_iff, ofNames_concat, covers_child_iff hm'.2.2, ih hm'.1, ← ofNames_concat]
    exact or_congr_left ⟨ofNames_inj hl hm, fun h => h ▸ rfl⟩

end Path

end ClusterCatalog
