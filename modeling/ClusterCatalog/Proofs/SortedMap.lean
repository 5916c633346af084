import Mathlib.Algebra.BigOperators.Group.List.Basic
import ClusterCatalog.SortedMap

/-!
# Sums over a map, and maps built from lists

`SortedMap.total f m` adds up `f` over the values of a map. Each operation has one law that says what
it does to a sum: `total_insert`, `total_erase`, `total_filter_add` and `total_overlay`. With the
one-element bag as `f`, a sum is the bag of the values, which is how things are counted that are
spread over several maps.

`SortedMap.Matching P` relates maps with the same keys whose values are related by `P`; whatever is
built from matching maps in the same way matches.

The rest are look-ups: in a map with another one laid over it (`get?_overlay`) and in the map of a
list (`mem_of_get?_ofList`, `contains_ofList`). Values that carry their own keys can be taken out of a
map and put back (`foldl_insert_values`). An entry whose key is above all others comes last
(`entries_insert_of_lt`).
-/

namespace ClusterCatalog

namespace SortedMap

variable {α : Type}

/-! ### Look-ups -/

/-- After all entries of an ascending list were put in, what is found is what the list has, or else what
was there before. -/
theorem get?_foldl_insert {l : List (String × α)} (h : l.Pairwise (fun a b => a.1 < b.1))
    (m : SortedMap α) (k : String) :
    (l.foldl (fun m e => m.insert e.1 e.2) m).get? k
      = ((l.find? (fun e => e.1 == k)).map (·.2)).or (m.get? k) := by
  induction l generalizing m with
  | nil => rfl
  | cons e l ih =>
    rw [List.pairwise_cons] at h
    rw [List.foldl_cons, ih h.2, get?_insert]
    by_cases hk : k = e.1
    · subst hk
      -- the keys that follow are greater
      have hnone : l.find? (fun x => x.1 == e.1) = none := by
        rw [List.find?_eq_none]
        intro x hx heq
        have hlt := h.1 x hx
        rw [beq_iff_eq] at heq
        rw [heq] at hlt
        exact String.lt_irrefl _ hlt
      rw [List.find?_cons_of_pos (by simp), hnone, if_pos rfl]
      rfl
    · rw [List.find?_cons_of_neg (by simpa using Ne.symm hk), if_neg hk]

/-- **Of the values that are put in under one key the last one stays.** -/
theorem get?_foldl_insert_key (key : α → String) (l : List α) (m : SortedMap α) (k : String) :
    (l.foldl (fun m a => m.insert (key a) a) m).get? k
      = (l.reverse.find? fun a => key a == k).or (m.get? k) := by
  induction l generalizing m with
  | nil => rfl
  | cons a l ih =>
    rw [List.foldl_cons, ih, get?_insert, List.reverse_cons, List.find?_append, Option.or_assoc]
    by_cases hk : k = key a
    · subst hk
      rw [if_pos rfl, List.find?_cons_of_pos (by simp)]
      rfl
    · rw [if_neg hk, List.find?_cons_of_neg (by simpa using Ne.symm hk)]
      rfl

/-- **Laying a map over another one** changes the look-ups of its keys. -/
theorem get?_overlay (m upper : SortedMap α) (k : String) :
    (m.overlay upper).get? k = (upper.get? k).or (m.get? k) :=
  get?_foldl_insert upper.ascending m k

/-- A map that is laid over another one has the keys of both. -/
theorem contains_overlay (m upper : SortedMap α) (k : String) :
    (m.overlay upper).contains k = (upper.contains k || m.contains k) := by
  rw [contains, get?_overlay, contains, contains]
  cases upper.get? k <;> rfl

/-- A map has the same keys after its values were changed. -/
theorem contains_map {β : Type} (f : String → α → β) (m : SortedMap α) (k : String) :
    (m.map f).contains k = m.contains k := by
  rw [contains, get?_map, contains]
  cases m.get? k <;> rfl

/-- A key is in a map if something is found under it. -/
theorem contains_iff {m : SortedMap α} {k : String} :
    m.contains k = true ↔ ∃ v, m.get? k = some v := Option.isSome_iff_exists

private theorem get?_ofList_aux (l : List (String × α)) (m : SortedMap α) (k : String) :
    (∃ v, (k, v) ∈ l ∧ (l.foldl (fun m e => m.insert e.1 e.2) m).get? k = some v)
      ∨ (∀ v, (k, v) ∉ l) ∧ (l.foldl (fun m e => m.insert e.1 e.2) m).get? k = m.get? k := by
  induction l generalizing m with
  | nil => exact .inr ⟨fun v => List.not_mem_nil, rfl⟩
  | cons e l ih =>
    -- a later entry of the same key decides, so the rest of the list comes first
    rcases ih (m.insert e.1 e.2) with ⟨v, hv, hget⟩ | ⟨hnot, hget⟩
    · exact .inl ⟨v, List.mem_cons_of_mem _ hv, hget⟩
    · rw [get?_insert] at hget
      by_cases hk : k = e.1
      · rw [if_pos hk] at hget
        exact .inl ⟨e.2, by rw [hk]; exact List.mem_cons_self, hget⟩
      · rw [if_neg hk] at hget
        refine .inr ⟨fun v hv => ?_, hget⟩
        rcases List.mem_cons.1 hv with rfl | hv
        · exact hk rfl
        · exact hnot v hv

/-- What is found in the map of a list is an element of the list. -/
theorem mem_of_get?_ofList {l : List (String × α)} {k : String} {v : α}
    (h : (ofList l).get? k = some v) : (k, v) ∈ l := by
  rcases get?_ofList_aux l empty k with ⟨w, hw, hget⟩ | ⟨-, hget⟩
  · obtain rfl := Option.some.inj (h.symm.trans hget)
    exact hw
  · cases h.symm.trans hget

/-- The map of a list has the keys of the list. -/
theorem contains_ofList {l : List (String × α)} {k : String} :
    (ofList l).contains k = true ↔ ∃ v, (k, v) ∈ l := by
  rw [contains_iff]
  constructor
  · rintro ⟨v, hv⟩
    exact ⟨v, mem_of_get?_ofList hv⟩
  · rintro ⟨v, hv⟩
    rcases get?_ofList_aux l empty k with ⟨w, -, hget⟩ | ⟨hnot, -⟩
    · exact ⟨w, hget⟩
    · exact absurd hv (hnot v)

/-- A map is the map of its entries. -/
theorem ofList_entries (m : SortedMap α) : ofList m.entries = m := by
  refine ext fun k => ?_
  rw [ofList, get?_foldl_insert m.ascending, get?_empty, Option.or_none]
  rfl

/-- **An entry whose key is above all others** comes last. -/
theorem entries_insert_of_lt {m : SortedMap α} {key : String} (h : ∀ e ∈ m.entries, e.1 < key)
    (value : α) : (m.insert key value).entries = m.entries ++ [(key, value)] := by
  show insertEntry key value m.entries = _
  generalize m.entries = l at h
  induction l with
  | nil => rfl
  | cons e l ih =>
    obtain ⟨hlt, hrest⟩ := List.forall_mem_cons.1 h
    unfold insertEntry
    rw [if_neg (String.lt_asymm hlt), if_pos hlt, ih hrest]
    rfl

/-- The values of a map are what is found under its keys. -/
theorem mem_values_iff {m : SortedMap α} {a : α} : a ∈ m.values ↔ ∃ k, m.get? k = some a := by
  rw [values, List.mem_map]
  constructor
  · rintro ⟨e, he, rfl⟩
    exact ⟨e.1, m.get?_eq_some_iff.2 he⟩
  · rintro ⟨k, hk⟩
    exact ⟨(k, a), m.get?_eq_some_iff.1 hk, rfl⟩

/-- Values that stand under their own keys are filtered as their entries are. -/
theorem values_filter {m : SortedMap α} {keep : α → Bool} {keep' : String → α → Bool}
    (h : ∀ e ∈ m.entries, keep e.2 = keep' e.1 e.2) :
    m.values.filter keep = (m.filter keep').values := by
  rw [values, values, filter, List.filter_map]
  exact congrArg (List.map _) (List.filter_congr h)

/-- Values that stand under their own keys make up the map again. -/
theorem foldl_insert_values {m : SortedMap α} {key : α → String}
    (h : ∀ e ∈ m.entries, key e.2 = e.1) :
    m.values.foldl (fun acc a => acc.insert (key a) a) ∅ = m := by
  rw [values, List.foldl_map]
  refine Eq.trans ?_ m.ofList_entries
  exact List.foldl_ext _ _ _ fun acc e he => by rw [h e he]

/-- The values under the keys are the entries. -/
theorem flatten_map_keys (m : SortedMap α) :
    (m.keys.map fun name => ((m.get? name).map fun a => (name, a)).toList).flatten = m.entries := by
  have hentry : ∀ e ∈ m.entries, ((m.get? e.1).map fun a => (e.1, a)).toList = [e] := fun e he => by
    rw [(m.get?_eq_some_iff).2 he]
    rfl
  rw [keys, List.map_map, ← List.flatMap_def]
  exact (List.flatMap_congr hentry).trans (by simp)

/-- Names that are no keys contribute nothing to the entries. -/
theorem flatten_map_of_filter {m : SortedMap α} {names : List String}
    (h : names.filter (fun name => m.contains name) = m.keys) :
    (names.map fun name => ((m.get? name).map fun a => (name, a)).toList).flatten = m.entries := by
  rw [← m.flatten_map_keys, ← h]
  clear h
  induction names with
  | nil => rfl
  | cons name names ih =>
    rw [List.map_cons, List.flatten_cons, ih]
    -- a name that is not in the map contributes nothing
    cases hname : m.contains name with
    | true =>
      rw [List.filter_cons_of_pos hname]
      rfl
    | false =>
      have hnone : m.get? name = none := by simpa [contains] using hname
      rw [List.filter_cons_of_neg (by rw [hname]; exact Bool.false_ne_true), hnone]
      rfl

/-! ### Maps that match -/

section Matching

variable {β : Type} {P : α → β → Prop} {m upper : SortedMap α} {m' upper' : SortedMap β}

/-- **Maps match** if they have the same keys and their values are related. -/
def Matching (P : α → β → Prop) (m : SortedMap α) (m' : SortedMap β) : Prop :=
  ∀ k, Option.Rel P (m.get? k) (m'.get? k)

/-- Two empty maps match. -/
theorem Matching.empty : Matching P (∅ : SortedMap α) (∅ : SortedMap β) := fun _ => .none

/-- Maps that match have the same keys. -/
theorem Matching.contains (h : Matching P m m') (k : String) : m.contains k = m'.contains k := by
  have hk := h k
  unfold SortedMap.contains
  generalize m.get? k = a, m'.get? k = b at hk ⊢
  cases hk <;> rfl

/-- Matching values may be put in under the same key. -/
theorem Matching.insert (h : Matching P m m') (k : String) {a : α} {b : β} (hab : P a b) :
    Matching P (m.insert k a) (m'.insert k b) := by
  intro key
  rw [get?_insert, get?_insert]
  split
  · exact .some hab
  · exact h key

/-- Entries may be kept by their keys. -/
theorem Matching.filter (h : Matching P m m') (keep : String → Bool) :
    Matching P (m.filter fun k _ => keep k) (m'.filter fun k _ => keep k) := by
  intro key
  have hkey := h key
  rw [get?_filter, get?_filter]
  generalize m.get? key = a, m'.get? key = b at hkey ⊢
  -- under each key both maps have something or neither has, and the key alone decides whether it is
  -- kept
  cases hkey with
  | none => exact .none
  | some hab =>
    cases keep key with
    | true => simpa [Option.filter] using Option.Rel.some hab
    | false =>
      simp only [Option.filter, Bool.false_eq_true, if_false]
      exact .none

/-- Maps that match may be laid over maps that match. -/
theorem Matching.overlay (h : Matching P m m') (hupper : Matching P upper upper') :
    Matching P (m.overlay upper) (m'.overlay upper') := by
  intro key
  have hkey := hupper key
  rw [get?_overlay, get?_overlay]
  generalize upper.get? key = a, upper'.get? key = b at hkey ⊢
  cases hkey with
  | none => exact h key
  | some hab => exact .some hab

/-- Lists with the same keys and matching values make matching maps. -/
theorem Matching.ofList {l : List (String × α)} {l' : List (String × β)}
    (h : List.Forall₂ (fun e e' => e.1 = e'.1 ∧ P e.2 e'.2) l l') :
    Matching P (ofList l) (ofList l') := by
  -- by induction on the lists, for whatever is in the maps already
  have hfold : ∀ (m : SortedMap α) (m' : SortedMap β), Matching P m m' →
      Matching P (l.foldl (fun m e => m.insert e.1 e.2) m)
        (l'.foldl (fun m e => m.insert e.1 e.2) m') := by
    induction h with
    | nil => exact fun _ _ hm => hm
    | @cons e e' _ _ hhead _ ih =>
      obtain ⟨hkey, hvalue⟩ := hhead
      intro m m' hm
      refine ih (m.insert e.1 e.2) (m'.insert e'.1 e'.2) ?_
      rw [hkey]
      exact hm.insert e'.1 hvalue
  exact hfold _ _ .empty

/-- Related values that look alike make matching maps look alike. -/
theorem Matching.map_eq {γ : Type} {f : α → γ} {g : β → γ} (h : Matching P m m')
    (hfg : ∀ a b, P a b → f a = g b) : (m.map fun _ a => f a) = m'.map fun _ b => g b := by
  refine ext fun key => ?_
  have hkey := h key
  rw [get?_map, get?_map]
  generalize m.get? key = a, m'.get? key = b at hkey ⊢
  cases hkey with
  | none => rfl
  | some hab => exact congrArg some (hfg _ _ hab)

end Matching

/-! ### Sums -/

variable {M : Type} [AddCommMonoid M] (f : α → M)

/-- **The sum of `f` over the values of a map.** -/
def total (m : SortedMap α) : M := (m.entries.map fun e => f e.2).sum

/-- The total of a map is the sum over its values. -/
theorem total_eq_sum_values (m : SortedMap α) : m.total f = (m.values.map f).sum := by
  rw [values, List.map_map]
  rfl

private theorem sum_insertEntry (key : String) (value : α) {l : List (String × α)}
    (h : l.Pairwise (fun a b => a.1 < b.1)) :
    ((insertEntry key value l).map fun e => f e.2).sum
        + ((l.find? (fun e => e.1 == key)).map (·.2)).elim 0 f
      = f value + (l.map fun e => f e.2).sum := by
  induction l with
  | nil => simp [insertEntry]
  | cons e l ih =>
    obtain ⟨k, v⟩ := e
    rw [List.pairwise_cons] at h
    unfold insertEntry
    split
    -- the key is less than all keys of the list, so there is no old value
    · rename_i hlt
      have hnone : ((k, v) :: l).find? (fun e => e.1 == key) = none := by
        rw [List.find?_eq_none]
        intro x hx heq
        rw [beq_iff_eq] at heq
        rcases List.mem_cons.1 hx with rfl | hx
        · exact String.lt_irrefl _ (heq ▸ hlt)
        · exact String.lt_irrefl _ (heq ▸ String.lt_trans hlt (h.1 x hx))
      rw [hnone]
      simp
    · split
      · rename_i hgt
        have hne : ¬ k = key := fun heq => String.lt_irrefl _ (heq ▸ hgt)
        rw [List.find?_cons_of_neg (by simpa using hne), List.map_cons, List.sum_cons, add_assoc,
          ih h.2, List.map_cons, List.sum_cons, add_left_comm]
      -- the value of the first entry is the one that is taken out
      · rename_i hlt hgt
        have hk : k = key := String.le_antisymm (String.not_lt.1 hlt) (String.not_lt.1 hgt)
        subst hk
        rw [List.find?_cons_of_pos (by simp), List.map_cons, List.sum_cons, List.map_cons,
          List.sum_cons, add_assoc]
        exact congrArg (f value + ·) (add_comm _ _)

/-- **Insertion** adds the new value and takes the old one out. -/
theorem total_insert (m : SortedMap α) (key : String) (value : α) :
    (m.insert key value).total f + (m.get? key).elim 0 f = f value + m.total f :=
  sum_insertEntry f key value m.ascending

/-- Under a new key a value is added to the total. -/
theorem total_insert_of_none {m : SortedMap α} {key : String} (h : m.get? key = none) (value : α) :
    (m.insert key value).total f = f value + m.total f := by
  have htotal := total_insert f m key value
  rw [h] at htotal
  simpa using htotal

/-- **Erasing** takes the value out. -/
theorem total_erase (m : SortedMap α) (key : String) :
    (m.erase key).total f + (m.get? key).elim 0 f = m.total f := by
  cases hvalue : m.get? key with
  | none =>
    have hsame : m.erase key = m := by
      refine ext fun k => ?_
      rw [get?_erase]
      by_cases hk : k = key
      · rw [if_pos hk, hk, hvalue]
      · rw [if_neg hk]
    rw [hsame]
    exact add_zero _
  | some value =>
    -- putting the value back adds what erasing has taken out
    have hsame : (m.erase key).insert key value = m := by
      refine ext fun k => ?_
      rw [get?_insert, get?_erase]
      by_cases hk : k = key
      · rw [if_pos hk, hk, hvalue]
      · rw [if_neg hk, if_neg hk]
    have hnone : (m.erase key).get? key = none := by rw [get?_erase, if_pos rfl]
    have htotal := total_insert_of_none f hnone value
    rw [hsame] at htotal
    rw [htotal]
    exact add_comm _ _

private theorem sum_filter_add (keep : String × α → Bool) (l : List (String × α)) :
    ((l.filter keep).map fun e => f e.2).sum + ((l.filter fun e => !keep e).map fun e => f e.2).sum
      = (l.map fun e => f e.2).sum := by
  induction l with
  | nil => exact add_zero 0
  | cons e l ih =>
    cases hkeep : keep e with
    | true =>
      rw [List.filter_cons_of_pos hkeep, List.filter_cons_of_neg (by simp [hkeep]), List.map_cons,
        List.sum_cons, add_assoc, ih, List.map_cons, List.sum_cons]
    | false =>
      rw [List.filter_cons_of_neg (by simp [hkeep]), List.filter_cons_of_pos (by simp [hkeep]),
        List.map_cons, List.sum_cons, add_left_comm, ih, List.map_cons, List.sum_cons]

/-- A condition divides a sum. -/
theorem total_filter_add (m : SortedMap α) (keep : String → α → Bool) :
    (m.filter keep).total f + (m.filter fun k v => !keep k v).total f = m.total f :=
  sum_filter_add f (fun e => keep e.1 e.2) m.entries

/-- **Maps without a common key** are added up when one is laid over the other. -/
theorem total_overlay {m upper : SortedMap α}
    (h : ∀ k, upper.contains k = true → m.get? k = none) :
    (m.overlay upper).total f = m.total f + upper.total f := by
  have hfold : ∀ (l : List (String × α)) (m : SortedMap α), l.Pairwise (fun a b => a.1 < b.1) →
      (∀ e ∈ l, m.get? e.1 = none) →
      (l.foldl (fun m e => m.insert e.1 e.2) m).total f
        = m.total f + (l.map fun e => f e.2).sum := by
    intro l
    induction l with
    | nil => intro m _ _; simp
    | cons e l ih =>
      intro m hl hm
      rw [List.pairwise_cons] at hl
      -- the keys ascend, so none of the other entries has the key that has just been put in
      have hrest : ∀ x ∈ l, (m.insert e.1 e.2).get? x.1 = none := by
        intro x hx
        have hne : x.1 ≠ e.1 := fun heq => String.lt_irrefl _ (heq ▸ hl.1 x hx)
        rw [get?_insert_of_ne _ _ hne]
        exact hm x (List.mem_cons_of_mem _ hx)
      rw [List.foldl_cons, ih _ hl.2 hrest, total_insert_of_none f (hm e List.mem_cons_self),
        List.map_cons, List.sum_cons, add_assoc, add_left_comm]
  exact hfold upper.entries m upper.ascending fun e he =>
    h e.1 (contains_iff.2 ⟨e.2, (get?_eq_some_iff upper).2 he⟩)

end SortedMap

end ClusterCatalog
