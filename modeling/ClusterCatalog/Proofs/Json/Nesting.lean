import ClusterCatalog.Proofs.Json.Recovery

/-!
# How deep values are nested

A decoder enters only so many arrays and objects within each other. A text may be nested too deep for
it, and a text that is not may be part of another one that is. So reading back a value by itself is one
thing, and reading back what contains it is another.

How many levels a document needs is its depth (`Document.depth`). Below that no value is found in it,
and from there on it is the same one with any number of levels (`Value.ofDocument_levels`). What is
written for a value is legible whatever numbers are in it (`Value.legible_toDocument`), so a value that is
read back from its own text is found wherever its document stands, as long as there are levels enough
(`Value.finds_readBack`).
-/

namespace ClusterCatalog

/-! ### Numerals of floating-point numbers -/

namespace Numeral

/-- The shortest digits of a number are some of the digits of a natural number. -/
theorem isDigit_of_mem_shortest {x : Binary64} {c : Char} (h : c ∈ (shortest x).1) :
    c.isDigit = true := by
  have hmem : c ∈ decimal ((Range.of x).search 17
      (floorLog10 (Range.of x).value (Range.of x).den)).1 :=
    List.mem_reverse.1 (List.dropWhile_subset _ (List.mem_reverse.1 h))
  exact Nat.isDigit_of_mem_toDigits (by decide) (by decide) hmem

/-- **A floating-point number is written in digits**, wherever its point stands. -/
theorem inDigits_ofBinary64 (x : Binary64) : (ofBinary64 x).InDigits := by
  have hzeros : ∀ {n : Nat} {c : Char}, c ∈ List.replicate n '0' → c.isDigit = true := fun h => by
    rw [List.eq_of_mem_replicate h]
    rfl
  -- where the point comes to stand decides which digits are before it; all of them are digits of the
  -- shortest form, or zeros
  intro c hc
  unfold ofBinary64 at hc
  split at hc
  · rw [List.mem_singleton.1 hc]
    rfl
  · dsimp only at hc
    split at hc
    · -- the first digit stands before the point, and all others after it
      exact isDigit_of_mem_shortest (List.mem_of_mem_drop hc)
    · split at hc
      · exact (List.mem_append.1 hc).elim hzeros isDigit_of_mem_shortest
      · dsimp only at hc
        split at hc
        · rw [List.mem_singleton.1 hc]
          rfl
        · exact (List.mem_append.1 (List.mem_of_mem_drop hc)).elim isDigit_of_mem_shortest hzeros

end Numeral

/-! ### Depth -/

namespace Document

mutual

/-- **How many arrays and objects** of a document stand within each other. -/
def depth : Document → Nat
  | .array items => depthItems items + 1
  | .object members => depthMembers members + 1
  | _ => 0

/-- The depth of the deepest item. -/
def depthItems : List Document → Nat
  | [] => 0
  | d :: ds => max d.depth (depthItems ds)

/-- The depth of the deepest member. -/
def depthMembers : List (Option String × Document) → Nat
  | [] => 0
  | (_, d) :: ms => max d.depth (depthMembers ms)

end

end Document

namespace Value

open Document Decoder

/-- How many arrays and objects of a value stand within each other. -/
def depth (v : Value) : Nat := v.toDocument.depth

mutual

/-- **The levels do not matter** for the value of a document, as long as they suffice: as many as it is
deep are needed, and more change nothing. -/
theorem ofDocument_levels : ∀ (doc : Document) {n m : Nat} {v : Value}, ofDocument n doc = some v →
    doc.depth ≤ n ∧ (doc.depth ≤ m → ofDocument m doc = some v)
  | .null, n, _, _, h => ⟨Nat.zero_le n, fun _ => h⟩
  | .bool _, n, _, _, h => ⟨Nat.zero_le n, fun _ => h⟩
  | .number _, n, _, _, h => ⟨Nat.zero_le n, fun _ => h⟩
  | .string _, n, _, _, h => ⟨Nat.zero_le n, fun _ => h⟩
  | .array items, 0, _, _, h => by cases h
  -- one level is spent on the brackets, the rest on what is between them
  | .array items, n + 1, m, v, h => by
    obtain ⟨values, hvalues, rfl⟩ := Option.map_eq_some_iff.1 h
    refine ⟨Nat.succ_le_succ (ofItems_levels items (m := 0) hvalues).1, fun hm => ?_⟩
    cases m with
    | zero => cases hm
    | succ m =>
      have hitems := (ofItems_levels items hvalues).2 (Nat.le_of_succ_le_succ hm)
      exact Option.map_eq_some_iff.2 ⟨values, hitems, rfl⟩
  | .object members, 0, _, _, h => by cases h
  -- braces are the same, with a key before each value
  | .object members, n + 1, m, v, h => by
    obtain ⟨named, hnamed, rfl⟩ := Option.map_eq_some_iff.1 h
    refine ⟨Nat.succ_le_succ (ofNamed_levels members (m := 0) hnamed).1, fun hm => ?_⟩
    cases m with
    | zero => cases hm
    | succ m =>
      have hmembers := (ofNamed_levels members hnamed).2 (Nat.le_of_succ_le_succ hm)
      exact Option.map_eq_some_iff.2 ⟨named, hmembers, rfl⟩

/-- The same for the items of an array, the deepest of which decides. -/
theorem ofItems_levels : ∀ (docs : List Document) {n m : Nat} {values : List Value},
    ofItems n docs = some values →
      depthItems docs ≤ n ∧ (depthItems docs ≤ m → ofItems m docs = some values)
  | [], n, _, _, h => ⟨Nat.zero_le n, fun _ => h⟩
  | doc :: docs, n, m, values, h => by
    obtain ⟨v, hv, h⟩ := Option.bind_eq_some_iff.1 h
    obtain ⟨vs, hvs, h⟩ := Option.bind_eq_some_iff.1 h
    obtain ⟨hdoc, hsame⟩ := ofDocument_levels doc (m := m) hv
    obtain ⟨hdocs, hsames⟩ := ofItems_levels docs (m := m) hvs
    refine ⟨Nat.max_le.2 ⟨hdoc, hdocs⟩, fun hm => ?_⟩
    obtain ⟨hfirst, hrest⟩ := Nat.max_le.1 hm
    rw [ofItems, hsame hfirst, hsames hrest]
    exact h

/-- The same for the members of an object; keys need no level. -/
theorem ofNamed_levels : ∀ (members : List (Option String × Document)) {n m : Nat}
    {named : List (String × Value)}, ofNamed n members = some named →
      depthMembers members ≤ n ∧ (depthMembers members ≤ m → ofNamed m members = some named)
  | [], n, _, _, h => ⟨Nat.zero_le n, fun _ => h⟩
  | (key, doc) :: members, n, m, named, h => by
    obtain ⟨k, hk, h⟩ := Option.bind_eq_some_iff.1 h
    obtain ⟨v, hv, h⟩ := Option.bind_eq_some_iff.1 h
    obtain ⟨vs, hvs, h⟩ := Option.bind_eq_some_iff.1 h
    obtain ⟨hdoc, hsame⟩ := ofDocument_levels doc (m := m) hv
    obtain ⟨hmembers, hsames⟩ := ofNamed_levels members (m := m) hvs
    -- a key that is no text would have failed with any number of levels
    refine ⟨Nat.max_le.2 ⟨hdoc, hmembers⟩, fun hm => ?_⟩
    obtain ⟨hfirst, hrest⟩ := Nat.max_le.1 hm
    rw [ofNamed, hk, hsame hfirst, hsames hrest]
    exact h

end

mutual

/-- **What is written for a value is legible**, floating-point numbers included. -/
theorem legible_toDocument : ∀ v : Value, v.toDocument.Legible
  | .null => trivial
  | .bool _ => trivial
  | .integer _ => Numeral.inDigits_of_isWhole rfl
  | .real x => Numeral.inDigits_ofBinary64 x
  | .text _ => rfl
  | .array items => legible_toItems items
  | .object members => legible_toNamed members

/-- The items of an array are written legibly. -/
theorem legible_toItems : ∀ items : List Value,
    EveryItem Numeral.InDigits (·.isSome = true) (toItems items)
  | [] => trivial
  | v :: vs => ⟨legible_toDocument v, legible_toItems vs⟩

/-- The members of an object are written legibly, their keys among them. -/
theorem legible_toNamed : ∀ members : List (String × Value),
    EveryMember Numeral.InDigits (·.isSome = true) (toNamed members)
  | [] => trivial
  | (_, v) :: ms => ⟨rfl, legible_toDocument v, legible_toNamed ms⟩

end

variable {v : Value}

/-- **A value that is read back from its own text** is found in its document, wherever there are as many
levels as it is deep. -/
theorem finds_readBack (h : Codec.ReadsBack v) :
    Decoder.value.Finds v.depth v.toDocument (Codec.readBack v) := by
  have hread : ofDocument maxLevels v.toDocument = some (Codec.readBack v) := by
    have hsome := h.read?.1
    rw [Codec.read?, Codec.write] at hsome
    change (Document.read v.toDocument.toText).bind _ = _ at hsome
    rw [read_toText v.legible_toDocument] at hsome
    exact hsome
  exact fun n hn => (ofDocument_levels _ hread).2 hn

/-- Where there are fewer levels, no value is found at all. -/
theorem eq_none_of_lt_depth {n : Nat} (h : n < v.depth) : Decoder.value n v.toDocument = none := by
  by_contra hsome
  obtain ⟨w, hw⟩ := Option.ne_none_iff_exists'.1 hsome
  exact Nat.not_le.2 h (ofDocument_levels _ (m := 0) hw).1

end Value

end ClusterCatalog
