import ClusterCatalog.Number.Numeral

/-!
# Settings

A `Setting` is one value in a file of settings, before anybody asks what it is for: a text, a
number, a truth value, a list or a table of further settings by name. Integers have 64 bits with
sign. A moment, such as a date, has no kind of its own: it is the text that was written.

A number with a point or an exponent is a `Floating`: one of the finite numbers of `Binary64`, an
infinity, or the number that is none.
-/

namespace ClusterCatalog

/-! ### Floating-point numbers -/

/-- **A floating-point number** of a file of settings. -/
inductive Floating where
  | finite (value : Binary64)
  | infinite (negative : Bool)
  /-- What is not a number. -/
  | undefined
deriving DecidableEq, Inhabited

namespace Floating

/-- The greatest word of 64 bits. -/
def maxWord : Nat := 18446744073709551615

/-- Whether the number is one of the two zeros. -/
def isZero : Floating → Bool
  | .finite x => x.isZero
  | _ => false

/-- **The nearest word** to a number: a half goes up, and what lies beyond the words goes to the
nearest end of them. What is not a number counts as zero. -/
def toWord : Floating → Nat
  | .finite x =>
    if x.negative then 0
    else if 0 ≤ x.exponent then min maxWord (x.mantissa * Nat.pow 2 x.exponent.toNat)
    else
      let den := Nat.pow 2 (-x.exponent).toNat
      min maxWord ((2 * x.mantissa + den) / (2 * den))
  | .infinite negative => if negative then 0 else maxWord
  | .undefined => 0

/-- The digits of a magnitude that is not zero, written without an exponent. -/
def positional (x : Binary64) : List Char :=
  let (digits, exponent) := Numeral.shortest x
  if exponent < 0 then '0' :: '.' :: List.replicate (-exponent - 1).toNat '0' ++ digits
  else
    let whole := exponent.toNat + 1
    let fraction := digits.drop whole
    digits.take whole ++ List.replicate (whole - digits.length) '0'
      ++ if fraction.isEmpty then [] else '.' :: fraction

/-- A number as a text: the shortest digits that read back, without an exponent. -/
def written : Floating → String
  | .finite x =>
    String.ofList ((if x.negative then ['-'] else [])
      ++ if x.isZero then ['0'] else positional x)
  | .infinite negative => if negative then "-inf" else "inf"
  | .undefined => "NaN"

end Floating

/-! ### Settings -/

/-- **A value in a file of settings.** -/
inductive Setting where
  /-- No value: a place of a list that was passed over when a later place was filled. -/
  | absent
  | text (value : String)
  | integer (value : Int)
  | real (value : Floating)
  | flag (value : Bool)
  | list (items : List Setting)
  | table (members : List (String × Setting))
deriving Inhabited

namespace Setting

/-- The value of a name in a table, none in what is not a table. -/
def member? (name : String) : Setting → Option Setting
  | .table members => members.lookup name
  | _ => none

/-- The members of a table, none of what is not a table. -/
def members : Setting → List (String × Setting)
  | .table members => members
  | _ => []

/-- The items of a list, none of what is not a list. -/
def items : Setting → List Setting
  | .list items => items
  | _ => []

end Setting

end ClusterCatalog
