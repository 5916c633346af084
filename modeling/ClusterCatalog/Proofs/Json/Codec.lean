import ClusterCatalog.Catalog.Schema
import ClusterCatalog.Catalog.StorageUnit
import ClusterCatalog.Proofs.SortedMap
import ClusterCatalog.Proofs.Json.RoundTrip

/-!
# Values are read back from their text

A decoder takes back what an encoder has written (`Decoder.Inverts`) if every document that is
written is plain, and if the decoder finds the value in it wherever it may enter enough levels. The
law is proved for the decoders of texts, flags, lists and maps; a record is taken apart into the
fields it was put together from (`Fields.ofDocument_ofMembers`).

`Codec.read?_write` takes the law to texts, and tables, views and the properties of pools
obey it.
-/

namespace ClusterCatalog

namespace Document

/-- A list whose items are written plainly is plain. -/
theorem plainItems_map {α : Type} {f : α → Document} (h : ∀ a, (f a).Plain) (l : List α) :
    PlainItems (l.map f) := by
  induction l with
  | nil => trivial
  | cons a l ih => exact ⟨h a, ih⟩

/-- An object whose members are written plainly is plain. -/
theorem plain_ofMembers {members : List (String × Document)} (h : ∀ m ∈ members, m.2.Plain) :
    (ofMembers members).Plain := by
  unfold ofMembers
  rw [Plain]
  induction members with
  | nil => trivial
  | cons m members ih =>
    exact ⟨rfl, h m List.mem_cons_self, ih fun m' hm' => h m' (List.mem_cons_of_mem _ hm')⟩

end Document

namespace Decoder

/-- **A decoder takes back what was written**, if it may enter so many levels. -/
def Inverts {α : Type} (decode : Decoder α) (encode : α → Document) (levels : Nat) : Prop :=
  ∀ a, (encode a).Plain ∧ ∀ n, levels ≤ n → decode n (encode a) = some a

/-- **A decoder finds a value** in a document, if it may enter so many levels. -/
def Finds {α : Type} (decode : Decoder α) (levels : Nat) (doc : Document) (a : α) : Prop :=
  ∀ n, levels ≤ n → decode n doc = some a

variable {α : Type} {decode : Decoder α} {encode : α → Document} {levels : Nat}

/-- A decoder that may enter more levels finds what it finds with fewer. -/
theorem Finds.mono {doc : Document} {a : α} (h : decode.Finds levels doc a) {more : Nat}
    (hle : levels ≤ more) : decode.Finds more doc a := fun n hn => h n (Nat.le_trans hle hn)

/-- What needs a level to be found is found if it is in what stands one level lower. -/
theorem Finds.succ {doc : Document} {a : α} (h : ∀ n, levels ≤ n → decode (n + 1) doc = some a) :
    decode.Finds (levels + 1) doc a := by
  -- a decoder without any level left enters nothing, but then there was none to be asked for
  rintro (_ | n) hn
  · cases hn
  · exact h n (Nat.le_of_succ_le_succ hn)

/-- A list of values is found if each of them is. -/
theorem Finds.list {l : List α} (h : ∀ a ∈ l, decode.Finds levels (encode a) a) :
    (list decode).Finds (levels + 1) (.array (l.map encode)) l := by
  refine .succ fun n hn => ?_
  show (l.map encode).mapM (decode n) = some l
  -- the items are decoded one after the other, each with the same number of levels
  induction l with
  | nil => rfl
  | cons a l ih =>
    rw [List.map_cons, List.mapM_cons, h a List.mem_cons_self n hn,
      ih fun a' ha' => h a' (List.mem_cons_of_mem _ ha')]
    rfl

/-- A map is found in the documents of other values, if from each of them its value is. -/
theorem Finds.mapValues {β : Type} {m : SortedMap β} {encode : β → Document} {f : β → α}
    (h : ∀ e ∈ m.entries, decode.Finds levels (encode e.2) (f e.2)) :
    (Decoder.map decode).Finds (levels + 1)
      (.ofMembers (m.entries.map fun e => (e.1, encode e.2))) (m.map fun _ => f) := by
  refine .succ fun n hn => ?_
  -- member by member, every key being a text and every value being found
  have hentries : ∀ l : List (String × β), (∀ e ∈ l, decode.Finds levels (encode e.2) (f e.2)) →
      ((l.map fun e => (e.1, encode e.2)).map fun m => (some m.1, m.2)).mapM
        (fun m => do some (← m.1, ← decode n m.2)) = some (l.map fun e => (e.1, f e.2)) := by
    intro l hl
    induction l with
    | nil => rfl
    | cons e l ih =>
      rw [List.map_cons, List.map_cons, List.mapM_cons,
        ih fun e' he' => hl e' (List.mem_cons_of_mem _ he'), hl e List.mem_cons_self n hn]
      rfl
  show SortedMap.ofList <$> _ = _
  rw [hentries m.entries h]
  -- the entries are in order already
  exact congrArg some (SortedMap.ofList_entries (m.map fun _ => f))

/-- A map of values is found if each of them is. -/
theorem Finds.map {m : SortedMap α} (h : ∀ e ∈ m.entries, decode.Finds levels (encode e.2) e.2) :
    (Decoder.map decode).Finds (levels + 1)
      (.ofMembers (m.entries.map fun e => (e.1, encode e.2))) m := by
  -- a map is a case of the above in which the values stay the same
  have hself : (m.map fun _ => id) = m := SortedMap.ext fun key => by
    rw [SortedMap.get?_map, Option.map_id]
    rfl
  have hfinds := Finds.mapValues (f := id) h
  rwa [hself] at hfinds

/-- A value that can be taken back is found in what was written. -/
theorem Inverts.finds (h : decode.Inverts encode levels) (a : α) :
    decode.Finds levels (encode a) a := (h a).2

/-- The number of levels is a bound only. -/
theorem Inverts.mono (h : decode.Inverts encode levels) {more : Nat} (hle : levels ≤ more) :
    decode.Inverts encode more := fun a => ⟨(h a).1, (h.finds a).mono hle⟩

/-- A text is taken back, and no level is entered for it. -/
theorem inverts_text : text.Inverts Document.ofString 0 := fun _ => ⟨by simp [Document.ofString,
  Document.Plain], fun _ _ => rfl⟩

/-- A list of values is read back. -/
theorem Inverts.list (h : decode.Inverts encode levels) :
    (list decode).Inverts (fun l => .array (l.map encode)) (levels + 1) := by
  intro l
  -- first that the list is written plainly, second that it is found again
  refine ⟨?_, Finds.list fun a _ => h.finds a⟩
  rw [Document.Plain]
  exact Document.plainItems_map (fun a => (h a).1) l

/-- A map of values is read back. -/
theorem Inverts.map (h : decode.Inverts encode levels) :
    (Decoder.map decode).Inverts
      (fun m => .ofMembers (m.entries.map fun e => (e.1, encode e.2))) (levels + 1) := by
  intro m
  refine ⟨Document.plain_ofMembers fun member hmember => ?_, Finds.map fun e _ => h.finds e.2⟩
  obtain ⟨e, -, rfl⟩ := List.mem_map.1 hmember
  exact (h e.2).1

end Decoder

/-- **An object is taken apart** into the fields that it was put together from. -/
theorem Fields.ofDocument_ofMembers {names : List String} {members : List (String × Document)}
    (hnames : members.map (·.1) = names) (hnodup : names.Nodup) (n : Nat) :
    Fields.ofDocument names (n + 1) (.ofMembers members) = some ⟨false, n, members⟩ := by
  -- all keys are texts, and all of them are known, so no member is left out
  have hnamed : ∀ l : List (String × Document),
      (l.map fun m => (some m.1, m.2)).mapM (fun m => do some (← m.1, m.2)) = some l := by
    intro l
    induction l with
    | nil => rfl
    | cons m l ih =>
      rw [List.map_cons, List.mapM_cons, ih]
      rfl
  have hknown : known names members = members := by
    refine List.filter_eq_self.2 fun m hm => ?_
    rw [List.contains_iff_mem, ← hnames]
    exact List.mem_map_of_mem hm
  show ((members.map fun m => (some m.1, m.2)).mapM _ >>= _) = _
  rw [hnamed]
  -- what remains to be checked is that no field is there twice
  show (if ((known names members).map (·.1)).Nodup then _ else _) = _
  rw [hknown, hnames, if_pos hnodup]

/-- A record is found if its fields are found among its members. -/
theorem Decoder.Finds.record {α : Type} {names : List String} {members : List (String × Document)}
    {build : Fields → Option α} {levels : Nat} {a : α} (hnames : members.map (·.1) = names)
    (hnodup : names.Nodup) (hbuild : ∀ n, levels ≤ n → build ⟨false, n, members⟩ = some a) :
    Finds (fun n doc => Fields.ofDocument names n doc >>= build) (levels + 1) (.ofMembers members)
      a := by
  refine .succ fun n hn => ?_
  show Fields.ofDocument names (n + 1) (.ofMembers members) >>= build = some a
  -- the fields are taken apart as they were put together, and the rest is what the record makes of them
  rw [Fields.ofDocument_ofMembers hnames hnodup]
  exact hbuild n hn

/-- **A record is read back** if its members are plain and its fields are found among them. -/
theorem Decoder.inverts_record {α : Type} {names : List String}
    {members : α → List (String × Document)} {build : Fields → Option α} {levels : Nat}
    (hnames : ∀ a, (members a).map (·.1) = names) (hnodup : names.Nodup)
    (hplain : ∀ a, ∀ m ∈ members a, m.2.Plain)
    (hbuild : ∀ a n, levels ≤ n → build ⟨false, n, members a⟩ = some a) :
    Inverts (fun n doc => Fields.ofDocument names n doc >>= build)
      (fun a => .ofMembers (members a)) (levels + 1) := fun a =>
  ⟨Document.plain_ofMembers (hplain a), Finds.record (hnames a) hnodup (hbuild a)⟩

namespace Codec

open Document

/-- **A value is read back from its text.** -/
theorem read?_write {α : Type} [Codec α] {levels : Nat}
    (h : Decoder.Inverts (decode : Decoder α) encode levels) (hlevels : levels ≤ Decoder.maxLevels)
    (a : α) : read? (write a) = some a := by
  unfold read? write
  -- the text is read as the document that was written
  rw [read_toText (h a).1.legible]
  exact (h a).2 _ hlevels

/-! ### Equal values -/

section ReadsBack

variable {α : Type} [Codec α] [BEq α] {a : α}

/-- **A value is read back** from its text as an equal one. -/
def ReadsBack (a : α) : Prop := (read? (write a)).any (· == a) = true

instance (a : α) : Decidable (ReadsBack a) := inferInstanceAs (Decidable (_ = true))

/-- What is read back of a value. -/
def readBack (a : α) : α := (read? (write a)).getD a

/-- A value that is read back is read as `readBack`, which is equal to it. -/
theorem ReadsBack.read? (h : ReadsBack a) :
    Codec.read? (write a) = some (readBack a) ∧ (readBack a == a) = true := by
  obtain ⟨a', ha', heq⟩ := (Option.any_eq_true _ _).1 h
  unfold readBack
  rw [ha']
  exact ⟨rfl, heq⟩

end ReadsBack

/-! ### Definitions -/

/-- A column is read back; its fields are no deeper than itself. -/
theorem inverts_column : Decoder.Inverts (decode : Decoder Column) encode 1 :=
  Decoder.inverts_record (fun _ => rfl) (by decide)
    (by simp [ofString, Plain]) fun _ _ _ => rfl

/-- An index is read back; the names of its columns are a list. -/
theorem inverts_index : Decoder.Inverts (decode : Decoder Index) encode 2 := by
  have hcolumns := Decoder.inverts_text.list
  refine Decoder.inverts_record (fun _ => rfl) (by decide) ?_ fun i n hn => ?_
  · simpa [ofString, ofStrings, Plain] using fun i : Index => (hcolumns i.columns).1
  · show (Decoder.list Decoder.text n (ofStrings i.columns)).bind (fun columns => some ⟨i.name, columns⟩)
      = some i
    rw [ofStrings, (hcolumns i.columns).2 n hn]
    rfl

/-- A table is read back; it holds lists of columns and of indexes. -/
theorem inverts_table : Decoder.Inverts (decode : Decoder Table) encode 4 := by
  have hcolumns := inverts_column.list.mono (by decide : 2 ≤ 3)
  have hindexes := inverts_index.list
  refine Decoder.inverts_record (fun _ => rfl) (by decide) ?_ fun t n hn => ?_
  · simpa [ofString, Plain] using fun t : Table =>
      ⟨(hcolumns t.columns).1, (hindexes t.indexes).1⟩
  · show (Decoder.list decode n (.array (t.columns.map encode))).bind (fun columns =>
      (Decoder.list decode n (.array (t.indexes.map encode))).bind fun indexes =>
        some ⟨t.name, columns, indexes⟩) = some t
    rw [(hcolumns t.columns).2 n hn, (hindexes t.indexes).2 n hn]
    rfl

/-- A view is read back. -/
theorem inverts_view : Decoder.Inverts (decode : Decoder View) encode 1 :=
  Decoder.inverts_record (fun _ => rfl) (by decide)
    (by simp [ofString, Plain]) fun _ _ _ => rfl

/-- The properties of a pool are read back; its settings are a map. -/
theorem inverts_poolProperties : Decoder.Inverts (decode : Decoder PoolProperties) encode 2 := by
  have hpool := Decoder.inverts_text.map
  refine Decoder.inverts_record (fun _ => rfl) (by decide) ?_ fun p n hn => ?_
  · simpa [ofString, encodeMap, encode, Plain] using fun p : PoolProperties => (hpool p.pool).1
  · show (Decoder.map Decoder.text n (encodeMap p.pool)).bind (fun pool =>
      some ⟨p.url, p.username, p.password, pool⟩) = some p
    rw [show encodeMap p.pool = .ofMembers (p.pool.entries.map fun e => (e.1, ofString e.2)) from rfl,
      (hpool p.pool).2 n hn]
    rfl

/-- **What is written of a table is read back.** -/
@[simp] theorem read?_write_table (t : Table) : read? (write t) = some t :=
  read?_write inverts_table (by decide) t

/-- What is written of a view is read back. -/
@[simp] theorem read?_write_view (v : View) : read? (write v) = some v :=
  read?_write inverts_view (by decide) v

/-- What is written of the properties of a pool is read back. -/
@[simp] theorem read?_write_poolProperties (p : PoolProperties) : read? (write p) = some p :=
  read?_write inverts_poolProperties (by decide) p

end Codec

end ClusterCatalog
