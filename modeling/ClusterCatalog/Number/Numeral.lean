import ClusterCatalog.Json.Document
import ClusterCatalog.Number.Binary64

/-!
# Numerals and floating-point numbers

How a decimal numeral becomes a number of 64 bits, and how such a number is written.

**Reading.** The leading digits of the numeral are collected while their value stays below 2^64;
the rest only move the decimal exponent. The collected value is rounded to a floating-point number
and then multiplied or divided by a power of ten, itself rounded. Up to three roundings happen, so
a numeral with many digits may end next to the nearest number; a numeral whose value is too large
is refused, and one that is too small becomes zero.

**Writing.** Of all decimals that lie closer to the number than to any other one, those with the
fewest digits are looked for, and of these the nearest one is taken. Magnitudes from 10^-5 up to
10^16 are written out with at least one digit after the point, all others with an exponent.
-/

namespace ClusterCatalog

namespace Numeral

/-! ### Reading -/

/-- The largest value that the collected digits may have. -/
def significandLimit : Nat := 18446744073709551615

/-- Collects digits while the value stays within the limit, and gives the digits left over. -/
def collect (value : Nat) : List Char → Nat × List Char
  | [] => (value, [])
  | d :: ds =>
    let next := value * 10 + (d.toNat - '0'.toNat)
    if next ≤ significandLimit then collect next ds else (value, d :: ds)

/-- The collected digits of a numeral and the power of ten that belongs to them. -/
def significand (n : Numeral) : Nat × Int :=
  let (value, restWhole) := collect 0 (decimal n.whole)
  let (value, restFraction) := collect value n.fraction
  let shift : Int := restWhole.length - (n.fraction.length - restFraction.length : Nat)
  (value, shift + n.exponent.getD 0)

/-- A magnitude times a power of ten. Powers of ten reach up to 10^308, so a smaller exponent than
-308 takes two divisions, and one below -616 leaves nothing of a value under 2^64. -/
def scale (x : Binary64) (exponent : Int) : Option Binary64 :=
  if x.isZero then some x
  else if 308 < exponent then none
  else if 0 ≤ exponent then do x.mul? (← Binary64.powerOfTen? exponent.toNat)
  else if -308 ≤ exponent then do x.div? (← Binary64.powerOfTen? (-exponent).toNat)
  else if -616 ≤ exponent then do
    let y ← x.div? (← Binary64.powerOfTen? 308)
    y.div? (← Binary64.powerOfTen? (-exponent - 308).toNat)
  else some (Binary64.zero false)

/-- **The floating-point number of a numeral**, if its value is not too large. -/
def toBinary64? (n : Numeral) : Option Binary64 := do
  let (value, exponent) := n.significand
  let x ← scale (← Binary64.ofNat? value) exponent
  some (x.withSign n.negative)

/-! ### Writing -/

/-- The exponents of ten from which on a number is written with an exponent. -/
def positionalFrom : Int := -5

/-- The first exponent of ten, going up, that is written with an exponent again. -/
def positionalBelow : Int := 16

/-- The greatest power of ten not above a positive ratio. -/
def floorLog10 (num den : Nat) : Int :=
  let estimate : Int := (decimal num).length - ((decimal den).length : Int)
  let reaches :=
    if 0 ≤ estimate then den * Nat.pow 10 estimate.toNat ≤ num
    else den ≤ num * Nat.pow 10 (-estimate).toNat
  if reaches then estimate else estimate - 1

/-- A number that is not zero with the bounds of the decimals that round to it, all three as
multiples of one ratio `1 / den`. The bounds themselves belong to the range for an even
mantissa. -/
structure Range where
  value : Nat
  lower : Nat
  upper : Nat
  den : Nat
  closed : Bool

/-- The range of a number. Below a power of two the next number is only half as far away. -/
def Range.of (x : Binary64) : Range :=
  let below := if x.mantissa = Nat.pow 2 52 ∧ Binary64.minExponent < x.exponent then 1 else 2
  let factor := Nat.pow 2 (x.exponent - 2).toNat
  { value := 4 * x.mantissa * factor
    lower := (4 * x.mantissa - below) * factor
    upper := (4 * x.mantissa + 2) * factor
    den := Nat.pow 2 (2 - x.exponent).toNat
    closed := x.mantissa % 2 = 0 }

/-- Whether a multiple of a power of ten rounds to the number. -/
def Range.holds (r : Range) (multiple : Nat) (power : Int) : Bool :=
  let scaled := multiple * r.den * Nat.pow 10 power.toNat
  let lower := r.lower * Nat.pow 10 (-power).toNat
  let upper := r.upper * Nat.pow 10 (-power).toNat
  if r.closed then lower ≤ scaled && scaled ≤ upper else lower < scaled && scaled < upper

/-- The multiple of a power of ten nearest to the number that rounds to it, if one of the two
neighbours does; of two equally near ones the even one. -/
def Range.nearest? (r : Range) (power : Int) : Option Nat :=
  let num := r.value * Nat.pow 10 (-power).toNat
  let den := r.den * Nat.pow 10 power.toNat
  let floor := num / den
  let preferred := Binary64.roundQuotient num den
  let other := if preferred = floor then floor + 1 else floor
  if r.holds preferred power then some preferred
  else if r.holds other power then some other
  else none

/-- The first power of ten, going down, of which a multiple rounds to the number. -/
def Range.search (r : Range) : Nat → Int → Nat × Int
  | 0, power => ((r.nearest? power).getD 0, power)
  | steps + 1, power =>
    match r.nearest? power with
    | some multiple => (multiple, power)
    | none => r.search steps (power - 1)

/-- The shortest digits of a number that is not zero, and the exponent of the first one. -/
def shortest (x : Binary64) : List Char × Int :=
  let r := Range.of x
  let (multiple, power) := r.search 17 (floorLog10 r.value r.den)
  let digits := decimal multiple
  let exponent := power + (digits.length - 1 : Nat)
  ((digits.reverse.dropWhile (· = '0')).reverse, exponent)

/-- **The numeral of a floating-point number.** -/
def ofBinary64 (x : Binary64) : Numeral :=
  if x.isZero then ⟨x.negative, 0, ['0'], none⟩ else
    let (digits, exponent) := shortest x
    let value (ds : List Char) : Nat := Nat.ofDigitChars 10 ds 0
    if exponent < positionalFrom ∨ positionalBelow ≤ exponent then
      ⟨x.negative, value (digits.take 1), digits.drop 1, some exponent⟩
    else if exponent < 0 then
      ⟨x.negative, 0, List.replicate (-exponent - 1).toNat '0' ++ digits, none⟩
    else
      let whole := exponent.toNat + 1
      let padded := digits ++ List.replicate (whole - digits.length) '0'
      let fraction := padded.drop whole
      ⟨x.negative, value (padded.take whole), if fraction.isEmpty then ['0'] else fraction, none⟩

end Numeral

end ClusterCatalog
