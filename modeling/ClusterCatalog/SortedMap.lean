/-!
# Maps sorted by their text keys

`SortedMap α` holds at most one value for each key and keeps its keys in ascending order of code
points, which is the order in which every listing, every written form and every batch of work goes
through them. The order is part of the type, so two maps with the same look-ups are equal
(`SortedMap.ext`), and the contents of a map do not depend on the order of the insertions.

The view of a map is `get?`: each operation has one lemma that says what it does to a look-up
(`get?_insert`, `get?_erase`, `get?_filter`, `get?_map`).
-/

namespace ClusterCatalog

/-- Values under text keys, in ascending order of the keys. -/
structure SortedMap (α : Type) where
  /-- The keys with their values, in order. -/
  entries : List (String × α)
  /-- Keys ascend strictly, so no key occurs twice. -/
  ascending : entries.Pairwise (fun a b => a.1 < b.1)

namespace SortedMap

variable {α β : Type}

instance [DecidableEq α] : DecidableEq (SortedMap α) := fun a b =>
  if h : a.entries = b.entries then isTrue (by cases a; cases b; cases h; rfl)
  else isFalse (fun hab => h (congrArg entries hab))

/-! ### Order of keys -/

private theorem key_lt_trans {a b c : String} (hab : a < b) (hbc : b < c) : a < c :=
  String.lt_trans hab hbc

private theorem key_lt_irrefl {a : String} : ¬ a < a := String.lt_irrefl a

private theorem key_eq_of_not_lt {a b : String} (hab : ¬ a < b) (hba : ¬ b < a) : a = b :=
  String.le_antisymm (String.not_lt.1 hba) (String.not_lt.1 hab)

/-! ### Construction -/

/-- The map without entries. -/
def empty : SortedMap α := ⟨[], .nil⟩

instance : Inhabited (SortedMap α) := ⟨empty⟩
instance : EmptyCollection (SortedMap α) := ⟨empty⟩

/-- Puts a value into an ascending list of entries, replacing the value of an equal key. -/
def insertEntry (key : String) (value : α) : List (String × α) → List (String × α)
  | [] => [(key, value)]
  | (k, v) :: rest =>
    if key < k then (key, value) :: (k, v) :: rest
    else if k < key then (k, v) :: insertEntry key value rest
    else (key, value) :: rest

private theorem mem_insertEntry {key : String} {value : α} {l : List (String × α)}
    {e : String × α} (h : e ∈ insertEntry key value l) : e = (key, value) ∨ e ∈ l := by
  induction l with
  | nil => simpa [insertEntry] using h
  | cons head rest ih =>
    obtain ⟨k, v⟩ := head
    simp only [insertEntry] at h
    split at h
    · simpa using h
    · split at h
      · rcases List.mem_cons.1 h with h | h
        · exact .inr (h ▸ List.mem_cons_self)
        · exact (ih h).imp_right (List.mem_cons_of_mem _)
      · rcases List.mem_cons.1 h with h | h
        · exact .inl h
        · exact .inr (List.mem_cons_of_mem _ h)

private theorem insertEntry_ascending (key : String) (value : α) {l : List (String × α)}
    (h : l.Pairwise (fun a b => a.1 < b.1)) :
    (insertEntry key value l).Pairwise (fun a b => a.1 < b.1) := by
  induction l with
  | nil => simp [insertEntry]
  | cons head rest ih =>
    obtain ⟨k, v⟩ := head
    rw [List.pairwise_cons] at h
    obtain ⟨hhead, hrest⟩ := h
    -- the entry comes before the head, somewhere after it, or in its place
    unfold insertEntry
    split
    · rename_i hlt
      refine List.pairwise_cons.2 ⟨fun e he => ?_, List.pairwise_cons.2 ⟨hhead, hrest⟩⟩
      rcases List.mem_cons.1 he with rfl | he
      · exact hlt
      · exact key_lt_trans hlt (hhead e he)
    · split
      · rename_i hgt
        refine List.pairwise_cons.2 ⟨fun e he => ?_, ih hrest⟩
        rcases mem_insertEntry he with rfl | he
        · exact hgt
        · exact hhead e he
      · rename_i hlt hgt
        have hk : k = key := key_eq_of_not_lt hgt hlt
        subst hk
        exact List.pairwise_cons.2 ⟨hhead, hrest⟩

/-- The map with `value` under `key`, whatever was there before. -/
def insert (m : SortedMap α) (key : String) (value : α) : SortedMap α :=
  ⟨insertEntry key value m.entries, insertEntry_ascending key value m.ascending⟩

/-- The map of a list of entries; of equal keys the last one stays. -/
def ofList (l : List (String × α)) : SortedMap α :=
  l.foldl (fun m e => m.insert e.1 e.2) empty

/-- The entries that satisfy a condition. -/
def filter (m : SortedMap α) (keep : String → α → Bool) : SortedMap α :=
  ⟨m.entries.filter (fun e => keep e.1 e.2), m.ascending.filter _⟩

/-- The map without `key`. -/
def erase (m : SortedMap α) (key : String) : SortedMap α :=
  m.filter (fun k _ => k != key)

/-- The same keys with other values. -/
def map (f : String → α → β) (m : SortedMap α) : SortedMap β :=
  ⟨m.entries.map (fun e => (e.1, f e.1 e.2)), by
    simpa [List.pairwise_map] using m.ascending⟩

/-- The entries of `m` overlaid with those of `upper`, which win where both have a key. -/
def overlay (m upper : SortedMap α) : SortedMap α :=
  upper.entries.foldl (fun acc e => acc.insert e.1 e.2) m

/-! ### Look-ups and listings -/

/-- The value under `key`, if there is one. -/
def get? (m : SortedMap α) (key : String) : Option α :=
  (m.entries.find? (fun e => e.1 == key)).map (·.2)

/-- Whether `key` has a value. -/
def contains (m : SortedMap α) (key : String) : Bool := (m.get? key).isSome

/-- The keys, ascending. -/
def keys (m : SortedMap α) : List String := m.entries.map (·.1)

/-- The values in the order of their keys. -/
def values (m : SortedMap α) : List α := m.entries.map (·.2)

/-- Number of entries. -/
def size (m : SortedMap α) : Nat := m.entries.length

/-- Whether there is no entry at all. -/
def isEmpty (m : SortedMap α) : Bool := m.entries.isEmpty

/-! ### What the operations do to a look-up -/

@[simp] theorem get?_empty (key : String) : (empty : SortedMap α).get? key = none := rfl

private theorem find?_insertEntry (key : String) (value : α) (k : String)
    {l : List (String × α)} (h : l.Pairwise (fun a b => a.1 < b.1)) :
    (insertEntry key value l).find? (fun e => e.1 == k)
      = if k = key then some (key, value) else l.find? (fun e => e.1 == k) := by
  induction l with
  | nil =>
    by_cases hk : k = key
    · subst hk; simp [insertEntry]
    · simp [insertEntry, hk, Ne.symm hk]
  | cons head rest ih =>
    obtain ⟨a, v⟩ := head
    rw [List.pairwise_cons] at h
    obtain ⟨_, hrest⟩ := h
    unfold insertEntry
    split
    · by_cases hk : k = key
      · subst hk; simp
      · simp [hk, List.find?_cons, Ne.symm hk]
    · split
      · rename_i hgt
        have hne : a ≠ key := fun hak => key_lt_irrefl (hak ▸ hgt)
        by_cases hk : k = key
        · subst hk
          simp [hne, ih hrest]
        · simp [hk, List.find?_cons, ih hrest]
      · rename_i hlt hgt
        have hak : a = key := key_eq_of_not_lt hgt hlt
        subst hak
        by_cases hk : k = a
        · subst hk; simp
        · simp [hk, Ne.symm hk]

/-- **Insertion** changes the look-up of its own key only. -/
theorem get?_insert (m : SortedMap α) (key : String) (value : α) (k : String) :
    (m.insert key value).get? k = if k = key then some value else m.get? k := by
  simp only [get?, insert, find?_insertEntry key value k m.ascending]
  by_cases hk : k = key <;> simp [hk]

@[simp] theorem get?_insert_self (m : SortedMap α) (key : String) (value : α) :
    (m.insert key value).get? key = some value := by
  rw [get?_insert, if_pos rfl]

theorem get?_insert_of_ne (m : SortedMap α) {key k : String} (value : α) (h : k ≠ key) :
    (m.insert key value).get? k = m.get? k := by
  rw [get?_insert, if_neg h]

private theorem find?_eq_some_of_mem {l : List (String × α)}
    (h : l.Pairwise (fun a b => a.1 < b.1)) {e : String × α} (he : e ∈ l) :
    l.find? (fun x => x.1 == e.1) = some e := by
  induction l with
  | nil => cases he
  | cons head rest ih =>
    rw [List.pairwise_cons] at h
    rcases List.mem_cons.1 he with rfl | he
    · simp
    · have hne : head.1 ≠ e.1 := fun heq => key_lt_irrefl (heq ▸ h.1 e he)
      simp [hne, ih h.2 he]

/-- A look-up finds exactly the entries of the map. -/
theorem get?_eq_some_iff (m : SortedMap α) {key : String} {value : α} :
    m.get? key = some value ↔ (key, value) ∈ m.entries := by
  constructor
  · intro h
    obtain ⟨e, he, rfl⟩ := Option.map_eq_some_iff.1 h
    have hk : e.1 = key := by simpa using List.find?_some he
    exact hk ▸ List.mem_of_find?_eq_some he
  · intro h
    simp [get?, find?_eq_some_of_mem m.ascending h]

/-- **Filtering** keeps the look-ups that satisfy the condition. -/
theorem get?_filter (m : SortedMap α) (keep : String → α → Bool) (key : String) :
    (m.filter keep).get? key = (m.get? key).filter (keep key) := by
  apply Option.ext
  intro value
  rw [get?_eq_some_iff, Option.filter_eq_some_iff, get?_eq_some_iff]
  simp [filter]

/-- **Erasing** removes the look-up of its key only. -/
theorem get?_erase (m : SortedMap α) (key k : String) :
    (m.erase key).get? k = if k = key then none else m.get? k := by
  rw [erase, get?_filter]
  by_cases hk : k = key
  · subst hk; cases m.get? k <;> simp [Option.filter]
  · cases m.get? k <;> simp [Option.filter, hk]

/-- **Changing the values** leaves the keys alone. -/
theorem get?_map (f : String → α → β) (m : SortedMap α) (key : String) :
    (m.map f).get? key = (m.get? key).map (f key) := by
  apply Option.ext
  intro value
  rw [get?_eq_some_iff, Option.map_eq_some_iff]
  constructor
  · intro h
    obtain ⟨e, he, heq⟩ := List.mem_map.1 h
    obtain ⟨rfl, rfl⟩ := Prod.mk.inj heq
    exact ⟨e.2, (get?_eq_some_iff m).2 he, rfl⟩
  · rintro ⟨v, hv, rfl⟩
    exact List.mem_map.2 ⟨(key, v), (get?_eq_some_iff m).1 hv, rfl⟩

private theorem entries_eq_of_get? {l₁ l₂ : List (String × α)}
    (h₁ : l₁.Pairwise (fun a b => a.1 < b.1)) (h₂ : l₂.Pairwise (fun a b => a.1 < b.1))
    (h : ∀ e, e ∈ l₁ ↔ e ∈ l₂) : l₁ = l₂ := by
  induction l₁ generalizing l₂ with
  | nil =>
    cases l₂ with
    | nil => rfl
    | cons e _ => exact absurd ((h e).2 List.mem_cons_self) (by simp)
  | cons e₁ r₁ ih =>
    cases l₂ with
    | nil => exact absurd ((h e₁).1 List.mem_cons_self) (by simp)
    | cons e₂ r₂ =>
      rw [List.pairwise_cons] at h₁ h₂
      -- each of the two comes first in a list that has the other one too
      have heq : e₁ = e₂ := by
        rcases List.mem_cons.1 ((h e₁).1 List.mem_cons_self) with he | he
        · exact he
        · rcases List.mem_cons.1 ((h e₂).2 List.mem_cons_self) with he' | he'
          · exact he'.symm
          · exact absurd (key_lt_trans (h₁.1 e₂ he') (h₂.1 e₁ he)) key_lt_irrefl
      subst heq
      congr 1
      refine ih h₁.2 h₂.2 (fun e => ?_)
      -- what comes after it has a greater key, so it is not found there again
      have hne₁ : e ∈ r₁ → e ≠ e₁ := fun he heq => key_lt_irrefl (heq ▸ h₁.1 e he)
      have hne₂ : e ∈ r₂ → e ≠ e₁ := fun he heq => key_lt_irrefl (heq ▸ h₂.1 e he)
      constructor
      · intro he
        exact (List.mem_cons.1 ((h e).1 (List.mem_cons_of_mem _ he))).resolve_left (hne₁ he)
      · intro he
        exact (List.mem_cons.1 ((h e).2 (List.mem_cons_of_mem _ he))).resolve_left (hne₂ he)

/-- **Extensionality**: maps with the same look-ups are equal. -/
theorem ext {m₁ m₂ : SortedMap α} (h : ∀ key, m₁.get? key = m₂.get? key) : m₁ = m₂ := by
  have hentries : m₁.entries = m₂.entries := by
    refine entries_eq_of_get? m₁.ascending m₂.ascending (fun e => ?_)
    rw [← get?_eq_some_iff m₁, ← get?_eq_some_iff m₂, h]
  cases m₁; cases m₂; cases hentries; rfl

/-- A key is listed exactly when it has a value. -/
theorem mem_keys_iff (m : SortedMap α) {key : String} : key ∈ m.keys ↔ m.contains key = true := by
  rw [contains, Option.isSome_iff_exists, keys, List.mem_map]
  constructor
  · rintro ⟨e, he, rfl⟩
    exact ⟨e.2, (get?_eq_some_iff m).2 he⟩
  · rintro ⟨v, hv⟩
    exact ⟨(key, v), (get?_eq_some_iff m).1 hv, rfl⟩

/-- Keys are listed in strictly ascending order. -/
theorem keys_ascending (m : SortedMap α) : m.keys.Pairwise (· < ·) := by
  simpa [keys, List.pairwise_map] using m.ascending

end SortedMap

end ClusterCatalog
