import Mathlib.Data.UInt
import Mathlib.Tactic.SplitIfs
import ClusterCatalog.Proofs.Tree.Lookup
import ClusterCatalog.Store.Access

/-!
# The same answers from every repository

The tree in memory and the table of a file answer a call in different ways: one goes through all of
its nodes, the other scans upwards from a key and stops at the first foreign one. This module shows
that no sequence of calls tells them apart.

A file is kept by a database engine. Of the engine nothing is known but what `RowEngine` says: a
table is a map whose rows are ordered by the *bytes* of their keys, and a range goes upwards from a
key. The model's own table is ordered by the code points of its keys, so the two orders have to be
compared first:

* `Path.bytes_lt_bytes_iff` — texts are ordered by their code points as by their bytes;
* `RowEngine.Holds` — the engine has the rows of a `NodeTable`, kept by every call
  (`RowEngine.holds_persist`, `RowEngine.holds_delete`);
* `Repository.answer_congr` — repositories with the same tree answer alike and have the same tree
  afterwards;
* `RowEngine.answers_alike` — whatever is called, an empty table of any engine, the empty table of
  the model and the empty tree give the same answers.

The first three are statements about one call; `answersOf_congr` carries them through a run.
-/

namespace ClusterCatalog

/-! ### The order of the bytes -/

namespace Path

/-- The bytes of a key. -/
def bytes (key : String) : List UInt8 := key.toUTF8.data.toList

theorem bytes_eq (key : String) : bytes key = key.toList.flatMap String.utf8EncodeChar := by
  have hencode : key.toUTF8 = (key.toList.flatMap String.utf8EncodeChar).toByteArray :=
    String.utf8Encode_toList.symm
  rw [bytes, hencode, List.data_toByteArray]

private theorem cons_ofNat_lt_cons {a b : Nat} (ha : a < 256) (hb : b < 256) {l l' : List UInt8}
    (h : a < b ∨ a = b ∧ l < l') : UInt8.ofNat a :: l < UInt8.ofNat b :: l' := by
  rw [List.cons_lt_cons_iff, UInt8.lt_iff_toNat_lt, ← UInt8.toNat_inj, UInt8.toNat_ofNat',
    UInt8.toNat_ofNat', Nat.mod_eq_of_lt ha, Nat.mod_eq_of_lt hb]
  exact h

/-- Of two numbers with the same digits in front of a place, the smaller one has the smaller digit
there, or the same digit and is decided behind it. -/
private theorem cons_digit_lt_cons {m n place width base : Nat} (hwidth : 0 < width)
    (hbyte : width + base ≤ 256) (h : m < n)
    (hfront : m / (place * width) = n / (place * width)) {l l' : List UInt8}
    (hrest : m / place = n / place → l < l') :
    UInt8.ofNat (m / place % width + base) :: l
      < UInt8.ofNat (n / place % width + base) :: l' := by
  have hm : m / place % width < width := Nat.mod_lt _ hwidth
  have hn : n / place % width < width := Nat.mod_lt _ hwidth
  refine cons_ofNat_lt_cons (by omega) (by omega) ?_
  rw [← Nat.div_div_eq_div_mul, ← Nat.div_div_eq_div_mul] at hfront
  have hle : m / place ≤ n / place := Nat.div_le_div_right h.le
  -- either this digit differs, or the numbers agree up to here and the rest decides
  rcases hle.lt_or_eq with hlt | heq
  · have hm' := Nat.div_add_mod (m / place) width
    have hn' := Nat.div_add_mod (n / place) width
    rw [hfront] at hm'
    exact .inl (by omega)
  · exact .inr ⟨by rw [heq], hrest heq⟩

private theorem codePoint_lt (c : Char) : c.val.toNat < 0x110000 := by
  have hvalid := c.valid
  unfold UInt32.isValidChar Nat.isValidChar at hvalid
  omega

/-- **A smaller character has smaller bytes**, whatever follows either. -/
theorem encode_lt_encode {c d : Char} (h : c < d) (l l' : List UInt8) :
    String.utf8EncodeChar c ++ l < String.utf8EncodeChar d ++ l' := by
  have hlt : c.val.toNat < d.val.toNat := UInt32.lt_iff_toNat_lt.1 h
  have hc := codePoint_lt c
  have hd := codePoint_lt d
  unfold String.utf8EncodeChar
  generalize c.val.toNat = m at *
  generalize d.val.toNat = n at *
  have hlast : m / 64 = n / 64 →
      UInt8.ofNat (m % 64 + 128) :: l < UInt8.ofNat (n % 64 + 128) :: l' := fun hfront =>
    cons_ofNat_lt_cons (by omega) (by omega) (.inl (by omega))
  simp only []
  split_ifs <;> simp only [List.cons_append, List.nil_append]
  -- an encoding of more bytes starts with a greater one; a single byte is the character itself
  all_goals first
    | omega
    | exact cons_ofNat_lt_cons (by omega) (by omega) (.inl (by omega))
    | skip
  -- encodings of the same length hold the digits of the code points, the first one first
  · exact cons_digit_lt_cons (by decide) (by decide) hlt (by omega) hlast
  · exact cons_digit_lt_cons (by decide) (by decide) hlt (by omega) fun hfront =>
      cons_digit_lt_cons (by decide) (by decide) hlt hfront hlast
  · exact cons_digit_lt_cons (by decide) (by decide) hlt (by omega) fun hfront =>
      cons_digit_lt_cons (by decide) (by decide) hlt hfront fun hfront =>
        cons_digit_lt_cons (by decide) (by decide) hlt hfront hlast

private theorem encode_ne_nil (c : Char) : String.utf8EncodeChar c ≠ [] :=
  String.utf8EncodeChar_ne_nil

/-- A smaller text has smaller bytes. -/
theorem bytes_lt_bytes {a b : String} (h : a < b) : bytes a < bytes b := by
  rw [String.lt_iff_toList_lt] at h
  rw [bytes_eq, bytes_eq]
  -- by recursion over the characters that both texts start with
  generalize a.toList = l, b.toList = l' at h
  induction l generalizing l' with
  | nil =>
    cases l' with
    | nil => exact absurd h (List.not_lt_nil _)
    | cons d l' =>
      obtain ⟨x, xs, hx⟩ := List.exists_cons_of_ne_nil (encode_ne_nil d)
      rw [List.flatMap_cons, hx]
      exact List.nil_lt_cons _ _
  | cons c l ih =>
    cases l' with
    | nil => exact absurd h (List.not_lt_nil _)
    | cons d l' =>
      rw [List.flatMap_cons, List.flatMap_cons]
      rcases List.cons_lt_cons_iff.1 h with hlt | ⟨rfl, hlt⟩
      · exact encode_lt_encode hlt _ _
      · exact List.append_left_lt (ih _ hlt)

/-- **The order of texts is the order of their bytes.** -/
theorem bytes_lt_bytes_iff {a b : String} : bytes a < bytes b ↔ a < b := by
  refine ⟨fun h => ?_, bytes_lt_bytes⟩
  rcases lt_trichotomy a b with hlt | rfl | hgt
  · exact hlt
  · exact absurd h (List.lt_irrefl _)
  · exact absurd h (List.lt_asymm (bytes_lt_bytes hgt))

end Path

/-! ### The table of the model -/

namespace NodeTable

variable (t : NodeTable) (key : String)

/-- The rows of a table stand in the order of the bytes of their keys. -/
theorem rows_ascending : t.rows.entries.Pairwise fun a b => Path.bytes a.1 < Path.bytes b.1 :=
  t.rows.ascending.imp Path.bytes_lt_bytes

/-- In ascending rows, those dropped from the front are exactly the smaller ones. -/
private theorem mem_dropWhile_iff {key : String} {row : String × String}
    {l : List (String × String)} (h : l.Pairwise (fun a b => a.1 < b.1)) :
    row ∈ l.dropWhile (fun row => row.1 < key) ↔ row ∈ l ∧ ¬ row.1 < key := by
  induction l with
  | nil => simp
  | cons first l ih =>
    rw [List.pairwise_cons] at h
    by_cases hlt : first.1 < key
    -- the first row is dropped, and it is not asked for
    · rw [List.dropWhile_cons_of_pos (by simpa using hlt)]
      refine (ih h.2).trans (and_congr_left fun hrow => ?_)
      refine (List.mem_cons.trans (or_iff_right ?_)).symm
      rintro rfl
      exact hrow hlt
    -- nothing is dropped; later keys are greater
    · rw [List.dropWhile_cons_of_neg (by simpa using hlt)]
      refine (and_iff_left_of_imp fun hrow => ?_).symm
      rcases List.mem_cons.1 hrow with rfl | hrow
      · exact hlt
      · exact fun hrowlt => hlt (String.lt_trans (h.1 row hrow) hrowlt)

/-- **A range goes over the rows from a key on**, and over all of them. -/
theorem mem_scanFrom_iff {row : String × String} :
    row ∈ t.scanFrom key ↔
      t.rows.get? row.1 = some row.2 ∧ ¬ Path.bytes row.1 < Path.bytes key := by
  rw [Path.bytes_lt_bytes_iff, SortedMap.get?_eq_some_iff]
  exact mem_dropWhile_iff t.rows.ascending

theorem scanFrom_ascending :
    (t.scanFrom key).Pairwise fun a b => Path.bytes a.1 < Path.bytes b.1 :=
  t.rows_ascending.sublist (List.dropWhile_sublist _)

end NodeTable

/-! ### The table of a database engine -/

/-- **What is known of a database engine**: a table is a map, and a range goes upwards from a key,
in the order of the bytes of the keys. -/
structure RowEngine where
  Rows : Type
  empty : Rows
  get? : Rows → String → Option String
  insert : Rows → String → String → Rows
  remove : Rows → String → Rows
  range : Rows → String → List (String × String)
  get?_empty : ∀ k, get? empty k = none
  get?_insert : ∀ rows key value k,
    get? (insert rows key value) k = if k = key then some value else get? rows k
  get?_remove : ∀ rows key k, get? (remove rows key) k = if k = key then none else get? rows k
  /-- A range goes over the rows from a key on. -/
  mem_range_iff : ∀ rows key row,
    row ∈ range rows key ↔ get? rows row.1 = some row.2 ∧ ¬ Path.bytes row.1 < Path.bytes key
  range_ascending : ∀ rows key,
    (range rows key).Pairwise fun a b => Path.bytes a.1 < Path.bytes b.1

namespace RowEngine

variable (e : RowEngine) {rows : e.Rows} {t : NodeTable}

/-- Inserts the rows of the missing nodes above a path, then the row of the path. -/
def persist (rows : e.Rows) (path : Path) (value : String) : e.Rows :=
  let insertMissing (rows : e.Rows) (ancestor : Path) : e.Rows :=
    if (e.get? rows ancestor).isNone then e.insert rows ancestor "" else rows
  e.insert ((Path.ancestors path).foldl insertMissing rows) path value

/-- The rows whose keys start with a text. -/
def scanBelow (rows : e.Rows) (front : String) : List (String × String) :=
  (e.range rows front).takeWhile fun row => Path.startsWith row.1 front

/-- The names of the direct children of a node. -/
def children (rows : e.Rows) (path : Path) : List String :=
  (e.scanBelow rows (Path.below path)).filterMap fun row => Path.childName? (Path.below path) row.1

/-- Removes the rows below a path, which are collected first, then the row of the path. -/
def delete (rows : e.Rows) (path : Path) : e.Rows :=
  let keys := (e.scanBelow rows (Path.below path)).map (·.1)
  e.remove (keys.foldl e.remove rows) path

/-- How a file of the engine answers. -/
def answer : (call : StoreRequest) → e.Rows → call.Reply × e.Rows
  | .persist path value, rows => (.ok (), e.persist rows path value)
  | .query path, rows => (.ok (e.get? rows path), rows)
  | .children path, rows => (.ok (e.children rows path), rows)
  | .delete path, rows => (.ok (), e.delete rows path)
  | .warn _, rows => ((), rows)

/-- The table of the model is one of an engine. -/
def ofNodeTable : RowEngine where
  Rows := NodeTable
  empty := .empty
  get? t := t.rows.get?
  insert t key value := ⟨t.rows.insert key value⟩
  remove t key := ⟨t.rows.erase key⟩
  range := NodeTable.scanFrom
  get?_empty := SortedMap.get?_empty
  get?_insert t := SortedMap.get?_insert t.rows
  get?_remove t := SortedMap.get?_erase t.rows
  mem_range_iff t key _ := t.mem_scanFrom_iff key
  range_ascending := NodeTable.scanFrom_ascending

/-! ### The rows of the model in an engine -/

/-- **An engine has the rows of a table** if it finds the same text under every key. -/
def Holds (rows : e.Rows) (t : NodeTable) : Prop := ∀ key, e.get? rows key = t.rows.get? key

variable {e}

theorem holds_empty : e.Holds e.empty .empty := fun key => e.get?_empty key

theorem Holds.insert (h : e.Holds rows t) (key value : String) :
    e.Holds (e.insert rows key value) ⟨t.rows.insert key value⟩ := fun k => by
  rw [e.get?_insert, SortedMap.get?_insert, h k]

theorem Holds.remove (h : e.Holds rows t) (key : String) :
    e.Holds (e.remove rows key) ⟨t.rows.erase key⟩ := fun k => by
  rw [e.get?_remove, SortedMap.get?_erase, h k]

/-- **Ranges over the same rows are equal**: the order leaves no choice. -/
theorem Holds.range_eq (h : e.Holds rows t) (key : String) : e.range rows key = t.scanFrom key := by
  have hengine := e.range_ascending rows key
  have htable := t.scanFrom_ascending key
  have hne : ∀ {a b : String × String}, Path.bytes a.1 < Path.bytes b.1 → a ≠ b := by
    rintro a _ hlt rfl
    exact List.lt_irrefl _ hlt
  have hperm : (e.range rows key).Perm (t.scanFrom key) := by
    refine (List.perm_ext_iff_of_nodup (hengine.imp hne) (htable.imp hne)).2 fun row => ?_
    rw [e.mem_range_iff, t.mem_scanFrom_iff, h row.1]
  exact hperm.eq_of_pairwise
    (fun _ _ _ _ hab hba => absurd hab (List.lt_asymm hba)) hengine htable

theorem Holds.scanBelow_eq (h : e.Holds rows t) (front : String) :
    e.scanBelow rows front = t.scanBelow front := by
  rw [scanBelow, h.range_eq]
  rfl

/-- **Writing a node** keeps the rows and the table together. -/
theorem holds_persist (h : e.Holds rows t) (path : Path) (value : String) :
    e.Holds (e.persist rows path value) (t.persist path value) := by
  unfold persist NodeTable.persist
  refine Holds.insert ?_ path value
  -- the missing nodes above are the same ones, since the look-ups are
  generalize Path.ancestors path = above
  induction above generalizing rows t with
  | nil => exact h
  | cons ancestor above ih =>
    rw [List.foldl_cons, List.foldl_cons, h ancestor]
    by_cases hnone : (t.rows.get? ancestor).isNone
    · rw [if_pos hnone, if_pos hnone]
      exact ih (h.insert ancestor "")
    · rw [if_neg hnone, if_neg hnone]
      exact ih h

/-- **Removing a node** keeps them together. -/
theorem holds_delete (h : e.Holds rows t) (path : Path) :
    e.Holds (e.delete rows path) (t.delete path) := by
  unfold delete NodeTable.delete
  rw [h.scanBelow_eq]
  refine Holds.remove ?_ path
  generalize (t.scanBelow (Path.below path)).map (·.1) = keys
  induction keys generalizing rows t with
  | nil => exact h
  | cons key keys ih => exact ih (h.remove key)

/-- **An engine answers one call as the table with the same rows**, and has the same rows
afterwards. -/
theorem Holds.answer (h : e.Holds rows t) (call : StoreRequest) :
    (e.answer call rows).1 = (Repository.answer call (.file t)).1
      ∧ ∃ t', (Repository.answer call (.file t)).2 = .file t' ∧ e.Holds (e.answer call rows).2 t' := by
  cases call with
  | persist path value => exact ⟨rfl, _, rfl, holds_persist h path value⟩
  | query path => exact ⟨congrArg Except.ok (h path), t, rfl, h⟩
  | children path =>
    refine ⟨congrArg Except.ok ?_, t, rfl, h⟩
    rw [children, h.scanBelow_eq]
    rfl
  | delete path => exact ⟨rfl, _, rfl, holds_delete h path⟩
  | warn _ => exact ⟨rfl, t, rfl, h⟩

end RowEngine

/-! ### Answers to many calls -/

/-- **What is replied to calls** one after the other, each reply with its call. -/
def answersOf {σ : Type} (answer : (call : StoreRequest) → σ → call.Reply × σ) :
    List StoreRequest → σ → List ((call : StoreRequest) × call.Reply)
  | [], _ => []
  | call :: calls, s => ⟨call, (answer call s).1⟩ :: answersOf answer calls (answer call s).2

/-- States that answer each call alike and stay related give the same answers to all calls. -/
theorem answersOf_congr {σ τ : Type} {answer : (call : StoreRequest) → σ → call.Reply × σ}
    {answer' : (call : StoreRequest) → τ → call.Reply × τ} (Related : σ → τ → Prop)
    (hstep : ∀ call s s', Related s s' →
      (answer call s).1 = (answer' call s').1 ∧ Related (answer call s).2 (answer' call s').2)
    (calls : List StoreRequest) {s : σ} {s' : τ} (h : Related s s') :
    answersOf answer calls s = answersOf answer' calls s' := by
  induction calls generalizing s s' with
  | nil => rfl
  | cons call calls ih =>
    obtain ⟨hreply, hnext⟩ := hstep call s s' h
    rw [answersOf, answersOf, hreply, ih hnext]

namespace Repository

/-- **A repository is known by its tree**: with the same nodes it answers a call alike and has the
same nodes afterwards, in memory as in a file. -/
theorem answer_congr {r r' : Repository} (h : r.tree = r'.tree) (call : StoreRequest) :
    (answer call r).1 = (answer call r').1 ∧ (answer call r).2.tree = (answer call r').2.tree := by
  -- each call is told of the tree alone
  cases call with
  | persist path value =>
    refine ⟨rfl, ?_⟩
    simp only [answer, tree_persist, h]
  | query path =>
    refine ⟨congrArg Except.ok ?_, h⟩
    rw [← query_tree, ← query_tree, h]
  | children path =>
    refine ⟨congrArg Except.ok ?_, h⟩
    rw [children_tree, children_tree, h]
  | delete path =>
    refine ⟨rfl, ?_⟩
    simp only [answer, tree_delete, h]
  | warn _ => exact ⟨rfl, h⟩

end Repository

/-- **Nothing tells the repositories apart**: calls with any paths and values, in any order and
number, are answered alike by an empty file of any engine, by an empty file of the model and by an
empty tree in memory. -/
theorem RowEngine.answers_alike (e : RowEngine) (calls : List StoreRequest) :
    answersOf e.answer calls e.empty = answersOf Repository.answer calls (.file .empty)
      ∧ answersOf Repository.answer calls (.file .empty)
        = answersOf Repository.answer calls (.memory .empty) := by
  constructor
  · -- an engine has the rows of the table, after each call
    refine answersOf_congr (fun rows r => ∃ t, r = .file t ∧ e.Holds rows t) ?_ calls
      ⟨.empty, rfl, holds_empty⟩
    rintro call rows - ⟨t, rfl, h⟩
    exact h.answer call
  · -- the table has the nodes of the tree, after each call
    exact answersOf_congr (fun r r' => r.tree = r'.tree)
      (fun call r r' h => Repository.answer_congr h call) calls rfl

/-- A node, another one whose name continues that of the first one with a character below the slash, and
a third one below the first one. Listings and the removal of a subtree go past the second one. -/
def callsOnNeighbours : List StoreRequest :=
  [.persist "/a/b" "x", .persist "/a-b" "y", .children "/a", .children "/", .delete "/a", .query "/a/b",
    .children "/"]

theorem RowEngine.answers_alike_neighbours :
    let answers : List ((call : StoreRequest) × call.Reply) :=
      [⟨.persist "/a/b" "x", .ok ()⟩, ⟨.persist "/a-b" "y", .ok ()⟩, ⟨.children "/a", .ok ["b"]⟩,
        ⟨.children "/", .ok ["a", "a-b"]⟩, ⟨.delete "/a", .ok ()⟩, ⟨.query "/a/b", .ok none⟩,
        ⟨.children "/", .ok ["a-b"]⟩]
    answersOf ofNodeTable.answer callsOnNeighbours ofNodeTable.empty = answers
      ∧ answersOf Repository.answer callsOnNeighbours (.memory .empty) = answers := by
  intro answers
  have hmemory : answersOf Repository.answer callsOnNeighbours (.memory .empty) = answers := by
    rfl
  obtain ⟨hengine, htable⟩ := answers_alike ofNodeTable callsOnNeighbours
  exact ⟨hengine.trans (htable.trans hmemory), hmemory⟩

end ClusterCatalog
