import ClusterCatalog.Proofs.Json.Codec

/-!
# Values are recovered from what is written for them

`Decoder.Inverts` speaks of the values of a type. Here the subject is a document that a decoder
accepts: it need not be what an encoder writes, but what is written for its value is legible and is
found to be that value again (`Decoder.Recovers`). A decoder may need some levels that the document
did not have, since a default that was left out is written; a record whose fields are free-form
needs none, and so is recovered however deep it is.

Two things could be lost. A map forgets the order and the repetitions of its members, which it can
because its entries are written in their order. A free-form value keeps a numeral only if it is an
integer of the range (`Numeral.IsInteger`), so the law is about documents with no other numerals in
their free-form parts. `Parts` tells which parts of a document these are.
-/

namespace ClusterCatalog

namespace Numeral

/-- The integer that a whole numeral stands for. -/
def toInt (n : Numeral) : Int := if n.negative then -n.whole else n.whole

/-- **An integer literal** from -2^63 up to 2^64-1 that is not `-0`. -/
structure IsInteger (n : Numeral) : Prop where
  whole : n.isWhole = true
  lower : -2 ^ 63 ≤ n.toInt
  upper : n.toInt < 2 ^ 64
  signed : ¬ (n.negative = true ∧ n.whole = 0)

instance (n : Numeral) : Decidable n.IsInteger :=
  decidable_of_iff (n.isWhole = true ∧ -2 ^ 63 ≤ n.toInt ∧ n.toInt < 2 ^ 64
      ∧ ¬ (n.negative = true ∧ n.whole = 0))
    ⟨fun ⟨whole, lower, upper, signed⟩ => ⟨whole, lower, upper, signed⟩,
      fun h => ⟨h.whole, h.lower, h.upper, h.signed⟩⟩

/-- An integer is written as it was read. -/
theorem IsInteger.ofInt_toInt {n : Numeral} (h : n.IsInteger) : ofInt n.toInt = n := by
  obtain ⟨negative, whole, fraction, exponent⟩ := n
  obtain ⟨rfl, rfl⟩ : fraction = [] ∧ exponent = none := by simpa [isWhole] using h.whole
  cases negative with
  | true =>
    have hpos : whole ≠ 0 := fun hzero => h.signed ⟨rfl, hzero⟩
    simp [ofInt, toInt, Nat.pos_of_ne_zero hpos]
  | false => simp [ofInt, toInt]

end Numeral

/-- The value of an integer literal is the integer. -/
theorem Value.ofNumeral_of_isInteger {n : Numeral} (h : n.IsInteger) :
    ofNumeral n = some (.integer n.toInt) := by
  obtain ⟨hwhole, hlower, hupper, hsigned⟩ := h
  unfold Numeral.toInt at hlower hupper ⊢
  unfold ofNumeral
  cases hsign : n.negative with
  | true =>
    rw [hsign, if_pos rfl] at hlower
    -- zero with a sign is no integer literal, so the number is below zero
    have hpos : n.whole ≠ 0 := fun hzero => hsigned ⟨hsign, hzero⟩
    have hle : n.whole ≤ Nat.pow 2 63 := by
      show n.whole ≤ 2 ^ 63
      omega
    rw [if_neg fun h => h.2.1 rfl, if_pos ⟨hwhole, rfl, hpos, hle⟩]
    rfl
  | false =>
    rw [hsign, if_neg Bool.false_ne_true] at hupper
    have hlt : n.whole < Nat.pow 2 64 := by
      show n.whole < 2 ^ 64
      omega
    rw [if_pos ⟨hwhole, Bool.false_ne_true, hlt⟩]
    rfl

namespace Document

/-- Every number of the document is an integer literal in the range. -/
def Integral (d : Document) : Prop := d.Every Numeral.IsInteger fun _ => True

/-- A list has whole numbers only if its items have. -/
theorem integral_array {items : List Document} :
    (array items).Integral ↔ ∀ d ∈ items, d.Integral := every_array

/-- An object has whole numbers only if its members have; keys do not matter. -/
theorem integral_object {members : List (Option String × Document)} :
    (object members).Integral ↔ ∀ m ∈ members, m.2.Integral := by
  refine every_object.trans ⟨fun h m hm => (h m hm).2, fun h m hm => ⟨trivial, h m hm⟩⟩

/-- An object is legible if its members are. -/
theorem legible_ofMembers {members : List (String × Document)} (h : ∀ m ∈ members, m.2.Legible) :
    (ofMembers members).Legible := by
  refine legible_object.2 fun m hm => ?_
  obtain ⟨named, hnamed, rfl⟩ := List.mem_map.1 hm
  exact ⟨rfl, h named hnamed⟩

/-! ### Free-form parts -/

/-- **Which parts** of a document are free-form. -/
abbrev Parts := Document → List Document

namespace Parts

/-- None at all. -/
def nowhere : Parts := fun _ => []

/-- The document itself. -/
def itself : Parts := fun doc => [doc]

/-- Those of the items of an array. -/
def ofItems (parts : Parts) : Parts
  | .array items => items.flatMap parts
  | _ => []

/-- Those of the members of an object, whatever their keys. -/
def ofMembers (parts : Parts) : Parts
  | .object members => members.flatMap fun m => parts m.2
  | _ => []

/-- Those of one field of a record with the given names. -/
def ofField (names : List String) (name : String) (parts : Parts) : Parts := fun doc =>
  ((Fields.ofDocument names 1 doc).bind fun f => f.get? name).toList.flatMap parts

end Parts

end Document

namespace Fields

/-- Taking a record apart enters one level, and how many are left does not matter for what is
found. -/
theorem ofDocument_eq {names : List String} {levels : Nat} {doc : Document} {f : Fields}
    (h : ofDocument names levels doc = some f) :
    levels = f.levels + 1 ∧ ofDocument names 1 doc = some { f with levels := 0 } := by
  cases levels with
  | zero => cases doc <;> cases h
  | succ levels =>
    -- a record is taken from a list by position or from an object by name, and from nothing else
    cases doc with
    | null | bool _ | number _ | string _ => cases h
    | array items =>
      simp only [ofDocument] at h ⊢
      split at h
      · rename_i hle
        obtain rfl := Option.some.inj h
        exact ⟨rfl, if_pos hle⟩
      · cases h
    | object members =>
      simp only [ofDocument, Option.bind_eq_bind, Option.bind_eq_some_iff] at h ⊢
      obtain ⟨named, hnamed, h⟩ := h
      split at h
      · rename_i hnodup
        obtain rfl := Option.some.inj h
        exact ⟨rfl, named, hnamed, if_pos hnodup⟩
      · cases h

end Fields

/-- A free-form part of a field that is found is one of the record. -/
theorem Document.Parts.mem_ofField {names : List String} {levels : Nat} {doc field part : Document}
    {f : Fields} {name : String} {parts : Parts} (hf : Fields.ofDocument names levels doc = some f)
    (hfield : f.get? name = some field) (hpart : part ∈ parts field) :
    part ∈ ofField names name parts doc := by
  have hget : ({ f with levels := 0 } : Fields).get? name = some field := hfield
  rw [ofField, (Fields.ofDocument_eq hf).2, Option.bind_some, hget]
  simpa using hpart

namespace Decoder

open Document (Parts)

/-- **A value is restored** from a document that is written for it: the document is legible, and the
decoder finds the value in it. -/
structure Restores {α : Type} (decode : Decoder α) (levels : Nat) (doc : Document) (a : α) :
    Prop where
  legible : doc.Legible
  finds : decode.Finds levels doc a

/-- **A decoder recovers what it accepts**: from what is written for the value of a document, the
value is restored with the levels of the document, or with those that are to spare. -/
def Recovers {α : Type} (decode : Decoder α) (encode : α → Document) (spare : Nat)
    (parts : Parts) : Prop :=
  ∀ ⦃levels : Nat⦄ ⦃doc : Document⦄ ⦃a : α⦄, decode levels doc = some a →
    (∀ part ∈ parts doc, part.Integral) → decode.Restores (max spare levels) (encode a) a

variable {α : Type} {decode : Decoder α} {encode : α → Document} {levels spare : Nat}
  {parts : Parts}

/-- What is restored with some levels is restored with more. -/
theorem Restores.mono {doc : Document} {a : α} (h : decode.Restores levels doc a) {more : Nat}
    (hle : levels ≤ more) : decode.Restores more doc a := ⟨h.legible, h.finds.mono hle⟩

/-- A value that can be taken back is restored from its document. -/
theorem Inverts.restores (h : decode.Inverts encode levels) (a : α) :
    decode.Restores levels (encode a) a := ⟨(h a).1.legible, h.finds a⟩

/-- A type whose values can all be taken back needs no condition on its documents. -/
theorem Inverts.recovers (h : decode.Inverts encode levels) :
    decode.Recovers encode levels .nowhere := fun _ _ a _ _ =>
  (h.restores a).mono (Nat.le_max_left _ _)

/-! ### Lists and maps -/

/-- What is among the results of a loop is the result of one of its rounds. -/
theorem exists_of_mapM_eq_some {β : Type} {f : α → Option β} {l : List α} {l' : List β}
    (h : l.mapM f = some l') : ∀ b ∈ l', ∃ a ∈ l, f a = some b := by
  induction l generalizing l' with
  | nil =>
    obtain rfl := Option.some.inj h
    intro b hb
    cases hb
  | cons a l ih =>
    rw [List.mapM_cons] at h
    obtain ⟨b, hb, h⟩ := Option.bind_eq_some_iff.1 h
    obtain ⟨bs, hbs, h⟩ := Option.bind_eq_some_iff.1 h
    obtain rfl := Option.some.inj h
    intro b' hb'
    rcases List.mem_cons.1 hb' with rfl | hb'
    · exact ⟨a, List.mem_cons_self, hb⟩
    · obtain ⟨a', ha', hfind⟩ := ih hbs b' hb'
      exact ⟨a', List.mem_cons_of_mem _ ha', hfind⟩

/-- Nothing is passed over: where a list is taken apart, each of its elements is. -/
theorem exists_of_mem_of_mapM_eq_some {β : Type} {f : α → Option β} {l : List α} {l' : List β}
    (h : l.mapM f = some l') : ∀ a ∈ l, ∃ b, f a = some b := by
  induction l generalizing l' with
  | nil =>
    intro a ha
    cases ha
  | cons a l ih =>
    rw [List.mapM_cons] at h
    obtain ⟨b, hb, h⟩ := Option.bind_eq_some_iff.1 h
    obtain ⟨bs, hbs, -⟩ := Option.bind_eq_some_iff.1 h
    exact List.forall_mem_cons.2 ⟨⟨b, hb⟩, ih hbs⟩

/-- Each value of a list comes from an item. -/
theorem exists_of_list_eq_some {doc : Document} {l : List α} (h : list decode levels doc = some l) :
    ∃ k items, levels = k + 1 ∧ doc = .array items
      ∧ ∀ a ∈ l, ∃ item ∈ items, decode k item = some a := by
  cases levels with
  | zero => cases h
  | succ k =>
    cases doc with
    | array items => exact ⟨k, items, rfl, rfl, exists_of_mapM_eq_some h⟩
    | _ => cases h

/-- Each value of a map comes from a member. -/
theorem exists_of_map_eq_some {doc : Document} {m : SortedMap α}
    (h : Decoder.map decode levels doc = some m) :
    ∃ k members, levels = k + 1 ∧ doc = .object members
      ∧ ∀ e ∈ m.entries, ∃ member ∈ members, decode k member.2 = some e.2 := by
  cases levels with
  | zero => cases h
  | succ k =>
    cases doc with
    | object members =>
      obtain ⟨named, hnamed, rfl⟩ := Option.map_eq_some_iff.1 h
      refine ⟨k, members, rfl, rfl, fun e he => ?_⟩
      -- of equal keys the last one counts, and it is among the members like any other
      have hget := (SortedMap.get?_eq_some_iff _).2 he
      obtain ⟨member, hmember, hdecode⟩ :=
        exists_of_mapM_eq_some hnamed _ (SortedMap.mem_of_get?_ofList hget)
      obtain ⟨key, -, hdecode⟩ := Option.bind_eq_some_iff.1 hdecode
      obtain ⟨value, hvalue, hdecode⟩ := Option.bind_eq_some_iff.1 hdecode
      obtain ⟨-, rfl⟩ := Prod.mk.inj (Option.some.inj hdecode)
      exact ⟨member, hmember, hvalue⟩
    | _ => cases h

/-- Where a map is taken apart, each member is. -/
theorem exists_of_mem_of_map_eq_some {members : List (Option String × Document)} {m : SortedMap α}
    (h : Decoder.map decode (levels + 1) (.object members) = some m) {member : Option String × Document}
    (hmember : member ∈ members) : ∃ a, decode levels member.2 = some a := by
  obtain ⟨named, hnamed, -⟩ := Option.map_eq_some_iff.1 h
  obtain ⟨entry, hentry⟩ := exists_of_mem_of_mapM_eq_some hnamed member hmember
  obtain ⟨key, -, hentry⟩ := Option.bind_eq_some_iff.1 hentry
  obtain ⟨a, ha, -⟩ := Option.bind_eq_some_iff.1 hentry
  exact ⟨a, ha⟩

/-- A list is restored if each of its items is. -/
theorem Restores.list {l : List α} (h : ∀ a ∈ l, decode.Restores levels (encode a) a) :
    (list decode).Restores (levels + 1) (.array (l.map encode)) l := by
  refine ⟨Document.legible_array.2 fun doc hdoc => ?_, Finds.list fun a ha => (h a ha).finds⟩
  obtain ⟨a, ha, rfl⟩ := List.mem_map.1 hdoc
  exact (h a ha).legible

/-- A map is restored if each of its values is. -/
theorem Restores.map {m : SortedMap α}
    (h : ∀ e ∈ m.entries, decode.Restores levels (encode e.2) e.2) :
    (Decoder.map decode).Restores (levels + 1)
      (.ofMembers (m.entries.map fun e => (e.1, encode e.2))) m := by
  refine ⟨Document.legible_ofMembers fun member hmember => ?_, Finds.map fun e he => (h e he).finds⟩
  obtain ⟨e, he, rfl⟩ := List.mem_map.1 hmember
  exact (h e he).legible

/-- **Lists are recovered** from documents in which each item is in order. -/
theorem Recovers.list (h : decode.Recovers encode spare parts) :
    (list decode).Recovers (fun l => .array (l.map encode)) (spare + 1) parts.ofItems := by
  intro levels doc l hlist hparts
  obtain ⟨k, items, rfl, rfl, hitems⟩ := exists_of_list_eq_some hlist
  have hle : max spare k + 1 ≤ max (spare + 1) (k + 1) := by omega
  refine (Restores.list fun a ha => ?_).mono hle
  obtain ⟨item, hitem, hdecode⟩ := hitems a ha
  exact h hdecode fun part hpart => hparts part (List.mem_flatMap.2 ⟨item, hitem, hpart⟩)

/-- **Maps are recovered** from documents in which each value is in order. -/
theorem Recovers.map (h : decode.Recovers encode spare parts) :
    (Decoder.map decode).Recovers
      (fun m => .ofMembers (m.entries.map fun e => (e.1, encode e.2))) (spare + 1)
      parts.ofMembers := by
  intro levels doc m hmap hparts
  obtain ⟨k, members, rfl, rfl, hmembers⟩ := exists_of_map_eq_some hmap
  -- a map is one level above the deepest of its members
  have hle : max spare k + 1 ≤ max (spare + 1) (k + 1) := by omega
  refine (Restores.map fun e he => ?_).mono hle
  obtain ⟨member, hmember, hdecode⟩ := hmembers e he
  exact h hdecode fun part hpart => hparts part (List.mem_flatMap.2 ⟨member, hmember, hpart⟩)

/-! ### Records -/

/-- The value of a field that is there is restored. -/
theorem Recovers.required (h : decode.Recovers encode spare parts) {names : List String}
    {doc : Document} {f : Fields} {name : String} {a : α}
    (hf : Fields.ofDocument names levels doc = some f)
    (hparts : ∀ part ∈ parts.ofField names name doc, part.Integral)
    (ha : f.required name decode = some a) :
    decode.Restores (max spare f.levels) (encode a) a := by
  obtain ⟨field, hfield, ha⟩ := Option.bind_eq_some_iff.1 ha
  exact h ha fun part hpart => hparts part (Parts.mem_ofField hf hfield hpart)

/-- So is that of a field that may be missing, if its default is. No such field is free-form. -/
theorem Recovers.withDefault (h : decode.Recovers encode spare .nowhere) {f : Fields}
    {name : String} {default a : α} (hdefault : decode.Restores spare (encode default) default)
    (ha : f.withDefault name decode default = some a) :
    decode.Restores (max spare f.levels) (encode a) a := by
  unfold Fields.withDefault at ha
  split at ha
  · exact h ha fun _ hpart => nomatch hpart
  · obtain rfl := Option.some.inj ha
    exact hdefault.mono (Nat.le_max_left _ _)

/-- A field that may be left out is restored, its default like any other value. -/
theorem Inverts.withDefault (h : decode.Inverts encode levels) {f : Fields} {name : String}
    {default a : α} (ha : f.withDefault name decode default = some a) :
    decode.Restores (max levels f.levels) (encode a) a :=
  h.recovers.withDefault (h.restores default) ha

/-- **A record is recovered** if the fields that were found in the document are restored from the
members that are written. -/
theorem Recovers.record {names : List String} {members : α → List (String × Document)}
    {build : Fields → Option α} (hnames : ∀ a, (members a).map (·.1) = names)
    (hnodup : names.Nodup)
    (h : ∀ {levels doc f a}, Fields.ofDocument names levels doc = some f →
      (∀ part ∈ parts doc, part.Integral) → build f = some a →
        (∀ m ∈ members a, m.2.Legible)
          ∧ ∀ n, max spare f.levels ≤ n → build ⟨false, n, members a⟩ = some a) :
    Recovers (fun n doc => Fields.ofDocument names n doc >>= build)
      (fun a => .ofMembers (members a)) (spare + 1) parts := by
  intro levels doc a hdecode hparts
  obtain ⟨f, hf, hbuild⟩ := Option.bind_eq_some_iff.1 hdecode
  obtain ⟨hlegible, hfinds⟩ := h hf hparts hbuild
  -- the levels that reading took are one for the braces and those of the fields
  rw [(Fields.ofDocument_eq hf).1]
  have hle : max spare f.levels + 1 ≤ max (spare + 1) (f.levels + 1) := by omega
  refine Restores.mono ⟨Document.legible_ofMembers hlegible, ?_⟩ hle
  exact Finds.record (hnames a) hnodup hfinds

end Decoder

/-! ### Free-form values -/

namespace Value

open Decoder

/-- Items are read one after the other. -/
theorem ofItems_eq_mapM (levels : Nat) (docs : List Document) :
    ofItems levels docs = docs.mapM (ofDocument levels) := by
  induction docs with
  | nil => rfl
  | cons doc docs ih =>
    rw [ofItems, List.mapM_cons, ih]
    rfl

/-- Members are read one after the other, and each of them must have a key that is a text. -/
theorem ofNamed_eq_mapM (levels : Nat) (members : List (Option String × Document)) :
    ofNamed levels members
      = members.mapM (fun m => do some (← m.1, ← ofDocument levels m.2)) := by
  induction members with
  | nil => rfl
  | cons m members ih =>
    rw [ofNamed, List.mapM_cons, ih]
    cases m.1 <;> cases ofDocument levels m.2 <;> rfl

/-- Items are written one after the other. -/
theorem toItems_eq_map (values : List Value) : toItems values = values.map toDocument := by
  induction values with
  | nil => rfl
  | cons value values ih => rw [toItems, ih, List.map_cons]

/-- Members are written one after the other. -/
theorem toNamed_eq_map (members : List (String × Value)) :
    toNamed members = (members.map fun e => (e.1, toDocument e.2)).map fun m => (some m.1, m.2) := by
  induction members with
  | nil => rfl
  | cons m members ih => rw [toNamed, ih]; rfl

/-- An array is taken apart as a list. -/
theorem ofDocument_array (levels : Nat) (items : List Document) :
    ofDocument levels (.array items) = array <$> list ofDocument levels (.array items) := by
  cases levels with
  | zero => rfl
  | succ levels => rw [ofDocument, ofItems_eq_mapM]; rfl

/-- An object is taken apart as a map. -/
theorem ofDocument_object (levels : Nat) (members : List (Option String × Document)) :
    ofDocument levels (.object members)
      = (fun m => object m.entries) <$> Decoder.map ofDocument levels (.object members) := by
  -- at the depth limit both sides give up
  cases levels with
  | zero => rfl
  | succ levels =>
    rw [ofDocument, ofNamed_eq_mapM]
    show ofMembers <$> _ = _ <$> SortedMap.ofList <$> _
    rw [Option.map_eq_map, Option.map_eq_map, Option.map_eq_map, Option.map_map]
    rfl

/-- **A free-form value is restored**, by induction on the document that it was read from. -/
theorem restores_toDocument : ∀ (doc : Document) {levels : Nat} {v : Value}, doc.Integral →
    ofDocument levels doc = some v → Decoder.value.Restores levels (toDocument v) v
  | .null, _, v, _, h => by
    obtain rfl := Option.some.inj h
    exact ⟨trivial, fun _ _ => rfl⟩
  | .bool b, _, v, _, h => by
    obtain rfl := Option.some.inj h
    exact ⟨trivial, fun _ _ => rfl⟩
  | .number n, _, v, hint, h => by
    have hn : n.IsInteger := hint
    -- an integer is written as the literal that it was read from
    obtain rfl := Option.some.inj ((ofNumeral_of_isInteger hn).symm.trans h)
    rw [toDocument, hn.ofInt_toInt]
    exact ⟨Numeral.inDigits_of_isWhole hn.whole, fun _ _ => ofNumeral_of_isInteger hn⟩
  | .string s, _, v, _, h => by
    obtain ⟨s, rfl, rfl⟩ := Option.map_eq_some_iff.1 h
    exact ⟨rfl, fun _ _ => rfl⟩
  | .array items, levels, v, hint, h => by
    rw [ofDocument_array] at h
    obtain ⟨values, hvalues, rfl⟩ := Option.map_eq_some_iff.1 h
    obtain ⟨k, items', rfl, heq, hitems⟩ := exists_of_list_eq_some hvalues
    obtain rfl := Document.array.inj heq
    -- each item is restored from the document that it was read from
    have hrestores : (list ofDocument).Restores (k + 1) (.array (values.map toDocument)) values := by
      refine Restores.list fun value hvalue => ?_
      obtain ⟨item, hitem, hdecode⟩ := hitems value hvalue
      exact restores_toDocument item (Document.integral_array.1 hint item hitem) hdecode
    rw [toDocument, toItems_eq_map]
    refine ⟨hrestores.legible, fun n hn => ?_⟩
    show ofDocument n _ = _
    rw [ofDocument_array, hrestores.finds n hn]
    rfl
  | .object members, levels, v, hint, h => by
    rw [ofDocument_object] at h
    obtain ⟨m, hm, rfl⟩ := Option.map_eq_some_iff.1 h
    obtain ⟨k, members', rfl, heq, hmembers⟩ := exists_of_map_eq_some hm
    obtain rfl := Document.object.inj heq
    have hrestores : (Decoder.map ofDocument).Restores (k + 1)
        (.ofMembers (m.entries.map fun e => (e.1, toDocument e.2))) m := by
      refine Restores.map fun e he => ?_
      obtain ⟨⟨key, doc⟩, hmember, hdecode⟩ := hmembers e he
      exact restores_toDocument doc (Document.integral_object.1 hint _ hmember) hdecode
    rw [toDocument, toNamed_eq_map]
    refine ⟨hrestores.legible, fun n hn => ?_⟩
    show ofDocument n (.ofMembers _) = _
    rw [Document.ofMembers, ofDocument_object, ← Document.ofMembers, hrestores.finds n hn]
    rfl

/-- Free-form values are recovered where all of their numbers are integers. -/
theorem recovers : Decoder.value.Recovers toDocument 0 .itself := by
  intro levels doc v h hparts
  rw [Nat.zero_max]
  exact restores_toDocument doc (hparts doc List.mem_cons_self) h

end Value

end ClusterCatalog
