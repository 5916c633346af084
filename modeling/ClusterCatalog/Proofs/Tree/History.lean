import Mathlib.Data.List.DropRight
import ClusterCatalog.Proofs.Tree.Lookup
import ClusterCatalog.Proofs.Tree.Names

/-!
# What a tree remembers of its history

A repository keeps no history: it is only what the writes and removals so far have made of it. What it
has at a path can still be told from the list of these changes, and only a part of the list matters.
Whatever comes before the last removal of the path, or of a path above it, is forgotten
(`TreeChange.since`). After that, the path is there as soon as something has been written at it or below
it; it has the text that was written to it last, and none if only what is below it was written.

A path that merely begins like another one takes no part in this: `/ab` is neither above nor below
`/a`. That is why the changes are sorted by `Path.Covers`, and why the paths have to be made of names
(`Path.WellFormed`). A path that ends in `/` would be removed together with its siblings.

* `TreeChange.query_apply` — what one change does to a look-up.
* `TreeChange.recalled_concat` — what one more change does to what is to be recalled.
* `TreeChange.query_replay` — the two agree along every history.
-/

namespace ClusterCatalog

open Repository

namespace Path

/-- **A well-formed path**: names, at least one, with a `/` before each. -/
def WellFormed (p : Path) : Prop := ∃ names, names ≠ [] ∧ (∀ name ∈ names, IsName name) ∧ p = ofNames names

/-- A well-formed path is the path of a child. -/
theorem WellFormed.exists_eq_child {p : Path} (h : p.WellFormed) :
    ∃ parent name, IsName name ∧ p = child parent name := by
  obtain ⟨names, hne, hnames, rfl⟩ := h
  exact exists_ofNames_eq_child hne hnames

/-- A well-formed path is not empty. -/
theorem WellFormed.ne_empty {p : Path} (h : p.WellFormed) : p ≠ "" := by
  obtain ⟨parent, name, -, rfl⟩ := h.exists_eq_child
  exact child_ne_empty parent name

end Path

/-- **A change of the tree**: a node is written, or it is removed with everything below it. -/
inductive TreeChange where
  | persist (path : Path) (value : String)
  | delete (path : Path)
deriving DecidableEq

namespace TreeChange

/-- The path that a change is made at. -/
def path : TreeChange → Path
  | persist path _ => path
  | delete path => path

/-- The repository after a change. -/
def apply (r : Repository) : TreeChange → Repository
  | persist path value => r.persist path value
  | delete path => r.delete path

/-- The repository after all changes, the first one first. -/
def replay (r : Repository) (changes : List TreeChange) : Repository := changes.foldl apply r

/-- **A change reaches a path** if it writes the node there or one below it. -/
def Reaches (p : Path) : TreeChange → Prop
  | persist path _ => p.Covers path
  | delete _ => False

/-- **A change clears a path** if it removes the node there or one above it. -/
def Clears (p : Path) : TreeChange → Prop
  | persist .. => False
  | delete path => path.Covers p

/-- The text that a change writes to the node of a path. -/
def text? (p : Path) : TreeChange → Option String
  | persist path value => if path = p then some value else none
  | delete _ => none

instance (p : Path) : DecidablePred (Reaches p)
  | persist path _ => inferInstanceAs (Decidable (p.Covers path))
  | delete _ => inferInstanceAs (Decidable False)

instance (p : Path) : DecidablePred (Clears p)
  | persist .. => inferInstanceAs (Decidable False)
  | delete path => inferInstanceAs (Decidable (path.Covers p))

/-- **The changes since a path was cleared last**, or all changes if it never was. -/
def since (p : Path) (changes : List TreeChange) : List TreeChange :=
  changes.rtakeWhile fun c => ¬ c.Clears p

/-- The texts that changes write to the node of a path, in order. -/
def texts (p : Path) (changes : List TreeChange) : List String := changes.filterMap (text? p)

/-- **What is to be recalled of changes** at a path that has not been cleared since. -/
def recalled (p : Path) (changes : List TreeChange) : Option String :=
  if ∃ c ∈ changes, c.Reaches p then some ((texts p changes).getLast?.getD "") else none

variable {p : Path} {c : TreeChange} {changes : List TreeChange}

/-! ### One change -/

/-- A change that writes the node of a path reaches the path. -/
theorem reaches_of_text? {v : String} (h : c.text? p = some v) : c.Reaches p := by
  cases c with
  | persist path value =>
    obtain ⟨rfl, -⟩ := Option.ite_none_right_eq_some.1 h
    exact .refl _
  | delete path => cases h

/-- **What one change does to a look-up.** The path is cleared, or gets a text, or is there for the sake
of what is below it, with the text that it had. -/
theorem query_apply (hc : c.path.WellFormed) (hp : p ≠ "") (r : Repository) :
    (apply r c).query p
      = if c.Clears p then none
        else if c.Reaches p then some ((c.text? p).getD ((r.query p).getD "")) else r.query p := by
  cases c with
  | persist path value =>
    rw [if_neg (show ¬ Clears p (persist path value) from id)]
    show (r.persist path value).query p = if p.Covers path then _ else _
    rw [query_persist]
    -- a write reaches its own path, with its text, and the paths above it, with none
    by_cases heq : path = p
    · subst heq
      rw [if_pos rfl, if_pos (.refl _), text?, if_pos rfl, Option.getD_some]
    · -- the node of the path is not the one that is written, so it has to be above that one
      have habove : p.Covers path ↔ p ∈ Path.ancestors path := by
        rw [Path.mem_ancestors_iff, Path.Covers, and_iff_right hp]
        exact or_iff_right (Ne.symm heq)
      rw [if_neg (Ne.symm heq), text?, if_neg heq, Option.getD_none]
      exact if_congr habove.symm rfl rfl
  | delete path =>
    -- a removal gives no text to any path; it clears all that it covers
    obtain ⟨parent, name, hname, rfl⟩ : ∃ parent name, Path.IsName name ∧ path = Path.child parent name :=
      hc.exists_eq_child
    show (r.delete (Path.child parent name)).query p = if (Path.child parent name).Covers p then _ else _
    rw [query_delete_child _ _ hname, if_neg (show ¬ Reaches p (delete _) from id)]

/-! ### One more change -/

/-- One more change: if it clears the path, nothing before it counts any more. -/
theorem since_concat (p : Path) (changes : List TreeChange) (c : TreeChange) :
    since p (changes ++ [c]) = if c.Clears p then [] else since p changes ++ [c] := by
  rw [since, List.rtakeWhile_concat]
  by_cases hclears : c.Clears p <;> simp [hclears, since]

/-- Without changes nothing is recalled. -/
theorem recalled_nil (p : Path) : recalled p [] = none := if_neg (by simp)

/-- Where nothing has reached a path, no text has been written to it. -/
theorem texts_eq_nil (h : ¬ ∃ c ∈ changes, c.Reaches p) : texts p changes = [] := by
  rw [texts, List.filterMap_eq_nil_iff]
  intro c hc
  rw [Option.eq_none_iff_forall_ne_some]
  intro v hv
  exact h ⟨c, hc, reaches_of_text? hv⟩

/-- Whether a path is there or not, its text is that of the last write. -/
theorem getD_recalled (p : Path) (changes : List TreeChange) :
    (recalled p changes).getD "" = (texts p changes).getLast?.getD "" := by
  unfold recalled
  split
  · rfl
  · rename_i hreached
    rw [texts_eq_nil hreached]
    rfl

/-- **One more change** adds to what is to be recalled just as it changes a look-up. -/
theorem recalled_concat (p : Path) (changes : List TreeChange) (c : TreeChange) :
    recalled p (changes ++ [c])
      = if c.Reaches p then some ((c.text? p).getD ((recalled p changes).getD ""))
        else recalled p changes := by
  -- the texts for the path are those of before and that of the new change, if it has one
  have htexts : texts p (changes ++ [c]) = texts p changes ++ (c.text? p).toList := by
    rw [texts, List.filterMap_append]
    cases htext : c.text? p <;> simp [texts, htext]
  have hreached : (∃ d ∈ changes ++ [c], d.Reaches p) ↔ (∃ d ∈ changes, d.Reaches p) ∨ c.Reaches p := by
    simp [or_and_right, exists_or]
  rw [recalled, htexts]
  -- if the change reaches the path without a text of its own, the one before it stays
  by_cases hc : c.Reaches p
  · rw [if_pos (hreached.2 (.inr hc)), if_pos hc, getD_recalled]
    cases c.text? p <;> simp
  · -- a change that does not reach the path has no text for it
    have hnone : c.text? p = none := by
      rw [Option.eq_none_iff_forall_ne_some]
      exact fun v hv => hc (reaches_of_text? hv)
    rw [if_neg hc, hnone, Option.toList_none, List.append_nil, recalled]
    exact if_congr (hreached.trans (or_iff_left hc)) rfl rfl

/-! ### Histories -/

/-- One more change is applied to what the others have led to. -/
theorem replay_concat (r : Repository) (changes : List TreeChange) (c : TreeChange) :
    replay r (changes ++ [c]) = apply (replay r changes) c := List.foldl_concat ..

/-- **What is looked up is what is to be recalled** of the changes since the path was cleared last. -/
theorem query_replay_eq {r : Repository} (hempty : r.nodes = ∅)
    (hchanges : ∀ c ∈ changes, c.path.WellFormed) (hp : p ≠ "") :
    (replay r changes).query p = recalled p (since p changes) := by
  induction changes using List.reverseRecOn with
  | nil => exact (query_of_nodes_eq_empty hempty p).trans (recalled_nil p).symm
  | append_singleton changes c ih =>
    rw [List.forall_mem_append, List.forall_mem_singleton] at hchanges
    rw [replay_concat, query_apply hchanges.2 hp, ih hchanges.1, since_concat]
    split
    · -- what was there before does not count any more
      exact (recalled_nil p).symm
    · exact (recalled_concat p (since p changes) c).symm

/-- **The content of a repository is determined by its history.** After any writes and removals at
well-formed paths in an empty repository, a well-formed path is absent just if since its last removal,
or that of a path above it, nothing was written at it or below it. Otherwise it has the text that was
written to it last in this time, and an empty one if only nodes below it were written. -/
theorem query_replay (r : Repository) (hempty : r.nodes = ∅) (changes : List TreeChange)
    (hchanges : ∀ c ∈ changes, c.path.WellFormed) (p : Path) (hp : p.WellFormed) :
    ((replay r changes).query p = none ↔ ∀ c ∈ since p changes, ¬ c.Reaches p)
      ∧ ((∃ c ∈ since p changes, c.Reaches p) →
        (replay r changes).query p = some ((texts p (since p changes)).getLast?.getD "")) := by
  rw [query_replay_eq hempty hchanges hp.ne_empty]
  refine ⟨?_, fun hreached => if_pos hreached⟩
  -- what is found is what is recalled since the last time the path was cleared
  unfold recalled
  split
  · rename_i hreached
    obtain ⟨c, hc, hreaches⟩ := hreached
    exact ⟨fun h => absurd h (Option.some_ne_none _), fun h => absurd hreaches (h c hc)⟩
  · rename_i hreached
    exact ⟨fun _ c hc hreaches => hreached ⟨c, hc, hreaches⟩, fun _ => rfl⟩

/-- A node with a text is removed together with the one above it, and comes back, without a text, when
something is written below it. It stays when that is removed again, and a node whose name merely begins
with its name takes no part. -/
theorem query_replay_over_removal :
    let changes := [persist "/a/b" "x", persist "/a/bc" "y", delete "/a", persist "/a/b/c" "z",
      delete "/a/bc", delete "/a/b/c"]
    (∀ c ∈ changes, c.path.WellFormed) ∧ Path.WellFormed "/a/b"
      ∧ (replay (.memory .empty) changes).query "/a/b" = some "" := by
  intro changes
  have hpath : Path.WellFormed "/a/b" := ⟨["a", "b"], by decide, by decide, by decide⟩
  have hother : Path.WellFormed "/a/bc" := ⟨["a", "bc"], by decide, by decide, by decide⟩
  have habove : Path.WellFormed "/a" := ⟨["a"], by decide, by decide, by decide⟩
  have hbelow : Path.WellFormed "/a/b/c" := ⟨["a", "b", "c"], by decide, by decide, by decide⟩
  have hchanges : ∀ c ∈ changes, c.path.WellFormed := by
    simp only [changes, List.forall_mem_cons]
    exact ⟨hpath, hother, habove, hbelow, hother, hbelow, fun _ h => absurd h List.not_mem_nil⟩
  -- since the removal above it the path was reached once, without a text
  have hreached : ∃ c ∈ since "/a/b" changes, c.Reaches "/a/b" := by decide
  refine ⟨hchanges, hpath, ?_⟩
  exact ((query_replay (.memory .empty) rfl changes hchanges "/a/b" hpath).2 hreached).trans (by decide)

end TreeChange

end ClusterCatalog
