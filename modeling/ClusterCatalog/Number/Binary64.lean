/-!
# Finite binary floating-point numbers of 64 bits

A `Binary64` is a sign, a mantissa below 2^53 and a power of two not below -1074; infinities and
NaN do not occur. All arithmetic is exact on natural numbers followed by one rounding to the
nearest representable number, a half going to the even mantissa (`Binary64.round`). A result whose
magnitude would be 2^1024 or more is no `Binary64`.
-/

namespace ClusterCatalog

/-- **A finite number with 53 bits of precision**: mantissa times a power of two. The mantissa has
all its 53 bits unless the exponent is the smallest one, so every number has one representation,
zero apart, which has one for each sign. -/
structure Binary64 where
  negative : Bool
  mantissa : Nat
  exponent : Int
deriving DecidableEq, Inhabited

namespace Binary64

/-- The smallest power of two. -/
def minExponent : Int := -1074

/-- The largest power of two. -/
def maxExponent : Int := 971

/-- Zero with a sign. -/
def zero (negative : Bool) : Binary64 := ⟨negative, 0, minExponent⟩

/-- Whether the number is one of the two zeros. -/
def isZero (x : Binary64) : Bool := x.mantissa == 0

/-- The number with the given sign and the same magnitude. -/
def withSign (negative : Bool) (x : Binary64) : Binary64 := { x with negative }

/-- Numerical equality: the two zeros are equal. -/
def sameValue (x y : Binary64) : Bool := x == y || (x.isZero && y.isZero)

/-- The quotient rounded to the nearest natural number, a half going to the even one. -/
def roundQuotient (num den : Nat) : Nat :=
  let quotient := num / den
  let rest := num % den
  if 2 * rest < den then quotient
  else if den < 2 * rest then quotient + 1
  else if quotient % 2 = 0 then quotient else quotient + 1

/-- The greatest power of two not above a positive ratio. -/
def floorLog2 (num den : Nat) : Int :=
  let estimate : Int := (num.log2 : Int) - den.log2
  let reaches :=
    if 0 ≤ estimate then den * Nat.pow 2 estimate.toNat ≤ num
    else den ≤ num * Nat.pow 2 (-estimate).toNat
  if reaches then estimate else estimate - 1

/-- **Rounding**: the nearest number to a non-negative ratio, unless it is too large. -/
def round (num den : Nat) : Option Binary64 :=
  if num = 0 then some (zero false) else
    let exponent := max (floorLog2 num den - 52) minExponent
    let mantissa :=
      if 0 ≤ exponent then roundQuotient num (den * Nat.pow 2 exponent.toNat)
      else roundQuotient (num * Nat.pow 2 (-exponent).toNat) den
    -- rounding up can carry into a 54th bit
    let (mantissa, exponent) :=
      if mantissa = Nat.pow 2 53 then (Nat.pow 2 52, exponent + 1) else (mantissa, exponent)
    if exponent ≤ maxExponent then some ⟨false, mantissa, exponent⟩ else none

/-- The nearest number to a natural number. -/
def ofNat? (n : Nat) : Option Binary64 := round n 1

/-- The nearest number to a power of ten. -/
def powerOfTen? (n : Nat) : Option Binary64 := round (Nat.pow 10 n) 1

/-- The product of two magnitudes. -/
def mul? (x y : Binary64) : Option Binary64 :=
  let exponent := x.exponent + y.exponent
  let product := x.mantissa * y.mantissa
  if 0 ≤ exponent then round (product * Nat.pow 2 exponent.toNat) 1
  else round product (Nat.pow 2 (-exponent).toNat)

/-- The quotient of two magnitudes, the second one not zero. -/
def div? (x y : Binary64) : Option Binary64 :=
  let exponent := x.exponent - y.exponent
  if 0 ≤ exponent then round (x.mantissa * Nat.pow 2 exponent.toNat) y.mantissa
  else round x.mantissa (y.mantissa * Nat.pow 2 (-exponent).toNat)

end Binary64

end ClusterCatalog
