import ClusterCatalog.SortedMap
import ClusterCatalog.Json.Reader
import ClusterCatalog.Number.Numeral

/-!
# Free-form values

Some parts of the catalogue are kept without knowing their shape: the items of a rule and the cells
of collected rows. They are `Value`s. A value remembers less than the text it was read from: the
members of an object are sorted by key and the last of equal keys wins, an integer numeral from
-2^63 up to 2^64-1 is that integer, and every other numeral, `-0` included, is the floating-point
number it stands for.

Reading is bounded in depth: `Value.ofDocument` counts the levels of arrays and objects it may still
enter.
-/

namespace ClusterCatalog

/-- **Any JSON value.** The members of an object are in ascending order of their keys. -/
inductive Value where
  | null
  | bool (value : Bool)
  | integer (value : Int)
  | real (value : Binary64)
  | text (value : String)
  | array (items : List Value)
  | object (members : List (String × Value))
deriving Inhabited

namespace Value

/-- The value of a numeral. -/
def ofNumeral (n : Numeral) : Option Value :=
  if n.isWhole ∧ ¬ n.negative ∧ n.whole < Nat.pow 2 64 then some (.integer n.whole)
  else if n.isWhole ∧ n.negative ∧ n.whole ≠ 0 ∧ n.whole ≤ Nat.pow 2 63 then
    some (.integer (-n.whole))
  else real <$> n.toBinary64?

/-- The object with the given members. -/
def ofMembers (members : List (String × Value)) : Value :=
  .object (SortedMap.ofList members).entries

mutual

/-- The value of a document that enters at most `levels` arrays and objects within each other. -/
def ofDocument (levels : Nat) : Document → Option Value
  | .null => some .null
  | .bool b => some (.bool b)
  | .number n => ofNumeral n
  | .string s => text <$> s
  | .array items =>
    match levels with
    | 0 => none
    | levels + 1 => array <$> ofItems levels items
  | .object members =>
    match levels with
    | 0 => none
    | levels + 1 => ofMembers <$> ofNamed levels members

/-- The values of a list of documents. -/
def ofItems (levels : Nat) : List Document → Option (List Value)
  | [] => some []
  | d :: ds => do
    let value ← ofDocument levels d
    let values ← ofItems levels ds
    some (value :: values)

/-- The values of the members of an object. -/
def ofNamed (levels : Nat) : List (Option String × Document) → Option (List (String × Value))
  | [] => some []
  | (k, d) :: ms => do
    let key ← k
    let value ← ofDocument levels d
    let members ← ofNamed levels ms
    some ((key, value) :: members)

end

mutual

/-- The document that a value is written as. -/
def toDocument : Value → Document
  | .null => .null
  | .bool b => .bool b
  | .integer i => .number (.ofInt i)
  | .real x => .number (.ofBinary64 x)
  | .text s => .ofString s
  | .array items => .array (toItems items)
  | .object members => .object (toNamed members)

/-- The documents of a list of values. -/
def toItems : List Value → List Document
  | [] => []
  | v :: vs => toDocument v :: toItems vs

/-- The members of the document of an object. -/
def toNamed : List (String × Value) → List (Option String × Document)
  | [] => []
  | (k, v) :: ms => (some k, toDocument v) :: toNamed ms

end

mutual

/-- Whether two values are equal, where floating-point numbers are compared as numbers: the two
zeros agree. -/
def agrees : Value → Value → Bool
  | .null, .null => true
  | .bool a, .bool b => a == b
  | .integer a, .integer b => a == b
  | .real a, .real b => a.sameValue b
  | .text a, .text b => a == b
  | .array a, .array b => agreesItems a b
  | .object a, .object b => agreesNamed a b
  | _, _ => false

/-- Whether two lists of values agree item by item. -/
def agreesItems : List Value → List Value → Bool
  | [], [] => true
  | a :: as, b :: bs => agrees a b && agreesItems as bs
  | _, _ => false

/-- Whether two lists of members agree member by member. -/
def agreesNamed : List (String × Value) → List (String × Value) → Bool
  | [], [] => true
  | (k, a) :: as, (l, b) :: bs => k == l && agrees a b && agreesNamed as bs
  | _, _ => false

end

instance : BEq Value := ⟨agrees⟩

end Value

end ClusterCatalog
