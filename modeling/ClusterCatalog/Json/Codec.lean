import ClusterCatalog.Json.Value

/-!
# Types with a written form

A type with a written form says how a value is put into a document and which documents are accepted
for it (`Codec`). Accepting is wider than writing:

* a record may be written as an object of named members in any order, or as an array of its fields
  in order. Unknown members are passed over without a look at their values, a known member may not
  be repeated, and an array may not be longer than the record;
* a missing field is accepted where it has a default. Nothing stands for a missing field, `null`
  least of all, except for fields that are optional themselves;
* no value is converted to another type.

Decoding counts the arrays and objects it enters; 127 of them within each other are accepted.
-/

namespace ClusterCatalog

/-- Takes a document apart, entering at most the given number of levels. -/
abbrev Decoder (α : Type) := Nat → Document → Option α

namespace Decoder

/-- How deep the arrays and objects of a text may be nested. -/
def maxLevels : Nat := 127

/-- A text. -/
def text : Decoder String
  | _, .string s => s
  | _, _ => none

/-- A truth value. -/
def flag : Decoder Bool
  | _, .bool b => some b
  | _, _ => none

/-- A natural number up to a limit, written without sign, point and exponent. -/
def natural (limit : Nat) : Decoder Nat
  | _, .number n => if n.isWhole ∧ ¬ n.negative ∧ n.whole ≤ limit then some n.whole else none
  | _, _ => none

/-- A natural number of 64 bits. -/
def word : Decoder Nat := natural 18446744073709551615

/-- A free-form value. -/
def value : Decoder Value := Value.ofDocument

/-- A value or `null`. -/
def nullable {α : Type} (d : Decoder α) : Decoder (Option α)
  | _, .null => some none
  | levels, doc => some <$> d levels doc

/-- An array of values of one kind. -/
def list {α : Type} (d : Decoder α) : Decoder (List α)
  | levels + 1, .array items => items.mapM (d levels)
  | _, _ => none

/-- An object whose members are values of one kind; of equal keys the last one stays. -/
def map {α : Type} (d : Decoder α) : Decoder (SortedMap α)
  | levels + 1, .object members =>
    SortedMap.ofList <$> members.mapM fun m => do some (← m.1, ← d levels m.2)
  | _, _ => none

end Decoder

/-- **The fields found for a record**: which form they were written in, the levels that their values
may still enter, and their documents by name. -/
structure Fields where
  positional : Bool
  levels : Nat
  found : List (String × Document)

namespace Fields

/-- The members whose key is one of the names. -/
def known (names : List String) (members : List (String × Document)) : List (String × Document) :=
  members.filter fun m => names.contains m.1

/-- Finds the fields of a record with the given names, in their order. -/
def ofDocument (names : List String) : Decoder Fields
  | levels + 1, .object members => do
    let named ← members.mapM fun m => do some (← m.1, m.2)
    let found := known names named
    if (found.map (·.1)).Nodup then some ⟨false, levels, found⟩ else none
  | levels + 1, .array items =>
    if items.length ≤ names.length then some ⟨true, levels, names.zip items⟩ else none
  | _, _ => none

/-- The document of a field. -/
def get? (f : Fields) (name : String) : Option Document :=
  (f.found.find? fun m => m.1 == name).map (·.2)

/-- A field that has to be there. -/
def required {α : Type} (f : Fields) (name : String) (d : Decoder α) : Option α := do
  d f.levels (← f.get? name)

/-- A field that may be missing. -/
def withDefault {α : Type} (f : Fields) (name : String) (d : Decoder α) (default : α) : Option α :=
  match f.get? name with
  | some doc => d f.levels doc
  | none => some default

/-- A field that may be `null` or, unless the fields are an array, missing. -/
def optional {α : Type} (f : Fields) (name : String) (d : Decoder α) : Option (Option α) :=
  match f.get? name with
  | some doc => Decoder.nullable d f.levels doc
  | none => if f.positional then none else some none

end Fields

/-- **A type with a written form.** -/
class Codec (α : Type) where
  /-- The document that a value is written as. -/
  encode : α → Document
  /-- The value that a document stands for. -/
  decode : Decoder α

namespace Codec

variable {α : Type} [Codec α]

/-- The compact text of a value. -/
def write (a : α) : String := (encode a).toText

/-- The value of a text. -/
def read? (text : String) : Option α := do
  decode Decoder.maxLevels (← Document.read text)

/-- The document of a list of values. -/
def encodeList (l : List α) : Document := .array (l.map encode)

/-- The document of a map: an object with its keys in order. -/
def encodeMap (m : SortedMap α) : Document := .ofMembers (m.entries.map fun e => (e.1, encode e.2))

instance : Codec String := ⟨Document.ofString, Decoder.text⟩

instance : Codec Value := ⟨Value.toDocument, Decoder.value⟩

instance : Codec (List α) := ⟨encodeList, Decoder.list decode⟩

instance : Codec (SortedMap α) := ⟨encodeMap, Decoder.map decode⟩

end Codec

end ClusterCatalog
