import ClusterCatalog.SettingsFile.Setting
import ClusterCatalog.SettingsFile.Text

/-!
# Numbers and moments in a file of settings

What starts with a digit or a sign is a moment, a floating-point number or an integer, tried in
this order. Between two digits of a number a single `_` may stand.

* An integer is decimal with an optional sign and without leading zeros, or it has the mark `0x`,
  `0o` or `0b` and no sign; it has to fit 64 bits with sign.
* A floating-point number has a point with digits on both sides, an exponent, or both; it is
  rounded once, to the nearest `Binary64`. A number too large for that is refused, but one that is
  too far below zero is minus infinity. `inf` and `nan` with an optional sign are numbers too.
* A moment is a date, a time of day, or a date with a time of day and perhaps an offset. It stands
  for the text that was written.
-/

namespace ClusterCatalog

namespace SettingsFile

/-! ### Digits -/

/-- Whether every `_` stands between two digits and there is a digit at all; `digit` says whether a
digit stands in front. -/
def isSeparated (digit : Bool) : List Char → Bool
  | [] => digit
  | c :: rest => if c == '_' then digit && isSeparated false rest else isSeparated true rest

/-- The digits at the front, with what follows them. -/
def digits (isDigit : Char → Bool) (cs : List Char) : Option (List Char × List Char) :=
  let (run, rest) := cs.span fun c => isDigit c || c == '_'
  if isSeparated false run then some (run.filter (· != '_'), rest) else none

/-- The decimal digits at the front, with what follows them. -/
def decimals (cs : List Char) : Option (List Char × List Char) := digits Char.isDigit cs

/-- The number that decimal digits stand for. -/
def valueOf (digits : List Char) : Nat := Nat.ofDigitChars 10 digits 0

/-- Passes over a sign, and says whether it is a minus. -/
def sign : List Char → Bool × List Char
  | '+' :: rest => (false, rest)
  | '-' :: rest => (true, rest)
  | cs => (false, cs)

/-! ### Integers -/

/-- An integer that fits 64 bits with sign. -/
def integer? (value : Int) : Option Setting :=
  if -9223372036854775808 ≤ value ∧ value ≤ 9223372036854775807 then some (.integer value)
  else none

/-- The base that the letter after a leading zero names. -/
def baseOf? (mark : Char) : Option Nat := [('x', 16), ('o', 8), ('b', 2)].lookup mark

/-- The value of a digit of a base. -/
def digitOf? (base : Nat) (c : Char) : Option Nat := (Document.hexValue? c).filter (· < base)

/-- The digits of an integer after the mark of its base. -/
def marked (base : Nat) (cs : List Char) : Option (Setting × List Char) := do
  let (run, rest) ← digits (fun c => (digitOf? base c).isSome) cs
  let value := run.foldl (fun n c => n * base + (digitOf? base c).getD 0) 0
  some (← integer? value, rest)

/-! ### Floating-point numbers -/

/-- The nearest number to a whole number times a power of ten, unless it is too large. A decimal
below 10^-330 rounds to zero, and one from 10^310 on is too large. -/
def nearest? (value : Nat) (power : Int) : Option Binary64 :=
  let size := (Numeral.decimal value).length + power
  if value = 0 ∨ size < -330 then some (.zero false)
  else if 310 < size then none
  else if 0 ≤ power then Binary64.round (value * Nat.pow 10 power.toNat) 1
  else Binary64.round value (Nat.pow 10 (-power).toNat)

/-- The floating-point number of a sign, the digits before and after the point, and the power of
ten. -/
def floating? (negative : Bool) (whole fraction : List Char) (power : Int) : Option Floating :=
  match nearest? (valueOf (whole ++ fraction)) (power - fraction.length) with
  | some x => some (.finite (x.withSign negative))
  | none => if negative then some (.infinite true) else none

/-- The exponent, if there is one. -/
def exponent : List Char → Option (Option Int × List Char)
  | c :: rest =>
    if c == 'e' || c == 'E' then do
      let (negative, rest) := sign rest
      let (power, rest) ← decimals rest
      some (some (if negative then -(valueOf power : Int) else valueOf power), rest)
    else some (none, c :: rest)
  | [] => some (none, [])

/-- A number after its sign. -/
def magnitude (negative : Bool) (cs : List Char) : Option (Setting × List Char) :=
  match cs with
  | 'i' :: 'n' :: 'f' :: rest => some (.real (.infinite negative), rest)
  | 'n' :: 'a' :: 'n' :: rest => some (.real .undefined, rest)
  | _ => do
    let (whole, rest) ← decimals cs
    if whole.length > 1 ∧ whole.head? = some '0' then none
    let (fraction, rest) ← match rest with
      | '.' :: rest => decimals rest
      | rest => some ([], rest)
    let (power, rest) ← exponent rest
    let setting ←
      if fraction.isEmpty ∧ power.isNone then
        integer? (if negative then -(valueOf whole : Int) else valueOf whole)
      else .real <$> floating? negative whole fraction (power.getD 0)
    some (setting, rest)

/-- An integer or a floating-point number. -/
def number (cs : List Char) : Option (Setting × List Char) :=
  match cs with
  | '0' :: mark :: rest =>
    match baseOf? mark with
    | some base => marked base rest
    | none => magnitude false cs
  | _ =>
    let (negative, rest) := sign cs
    magnitude negative rest

/-! ### Moments -/

/-- Two digits whose value lies between two bounds. -/
def pair (least most : Nat) : List Char → Option (Nat × List Char)
  | a :: b :: rest =>
    let value := valueOf [a, b]
    if a.isDigit ∧ b.isDigit ∧ least ≤ value ∧ value ≤ most then some (value, rest) else none
  | _ => none

/-- Whether a year has a 29th of February. -/
def isLeap (year : Nat) : Bool := year % 4 == 0 && (year % 100 != 0 || year % 400 == 0)

/-- The number of days of a month. -/
def daysOf (year month : Nat) : Nat :=
  if month = 2 then if isLeap year then 29 else 28
  else if month ∈ [4, 6, 9, 11] then 30
  else 31

/-- Passes over one given character. -/
def expect (c : Char) : List Char → Option (List Char)
  | d :: rest => if d = c then some rest else none
  | [] => none

/-- Passes over a date: year, month and day. -/
def skipDate? (cs : List Char) : Option (List Char) := do
  let (century, rest) ← pair 0 99 cs
  let (year, rest) ← pair 0 99 rest
  let (month, rest) ← pair 1 12 (← expect '-' rest)
  let (_, rest) ← pair 1 (daysOf (century * 100 + year) month) (← expect '-' rest)
  some rest

/-- Passes over a time of day: hour, minute and second, which may be a leap second and may have a
fraction. -/
def skipTime? (cs : List Char) : Option (List Char) := do
  let (_, rest) ← pair 0 23 cs
  let (_, rest) ← pair 0 59 (← expect ':' rest)
  let (_, rest) ← pair 0 60 (← expect ':' rest)
  match rest with
  | '.' :: rest =>
    let (fraction, rest) := rest.span Char.isDigit
    if fraction.isEmpty then none else some rest
  | rest => some rest

/-- Passes over an offset, hours and minutes ahead or behind, if there is one. -/
def skipOffset (cs : List Char) : List Char :=
  match cs with
  | c :: rest =>
    if c == 'Z' || c == 'z' then rest
    else if c == '+' || c == '-' then
      (do
        let (_, rest) ← pair 0 23 rest
        let (_, rest) ← pair 0 59 (← expect ':' rest)
        some rest).getD cs
    else cs
  | [] => []

/-- Passes over a moment. A blank after a date is a part of it only if a time of day follows. -/
def skipMoment? (cs : List Char) : Option (List Char) :=
  match skipDate? cs with
  | none => skipTime? cs
  | some rest =>
    match rest with
    | mark :: clock =>
      if mark == 'T' || mark == 't' || mark == ' ' then
        some (((skipTime? clock).map skipOffset).getD rest)
      else some rest
    | [] => some []

/-- **A number or a moment.** -/
def numberOrMoment (cs : List Char) : Option (Setting × List Char) :=
  match skipMoment? cs with
  | some rest => some (.text (String.ofList (cs.take (cs.length - rest.length))), rest)
  | none => number cs

end SettingsFile

end ClusterCatalog
