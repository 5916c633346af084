import ClusterCatalog.Json.Document

/-!
# Reading a JSON text

`Document.read` accepts exactly the texts of RFC 8259, blanks around the value included: no
comments, no comma before a closing bracket, no leading zeros, no raw control characters in a
string and nothing after the value. It takes numbers of any size and arrays and objects of any
depth, and it accepts escapes of lone surrogates; what a value of a type may contain is decided
where the document is taken apart.

A reader takes characters and gives what it read with the characters that are left. The readers of
values, items and members call each other, so they count down a number that bounds the depth of
the calls; `Document.read` starts it high enough for the text.
-/

namespace ClusterCatalog

namespace Document

/-- The blanks that may stand between tokens. -/
def isBlank (c : Char) : Bool := c = ' ' || c = '\n' || c = '\t' || c = '\r'

/-- Passes over blanks. -/
def skipBlanks (cs : List Char) : List Char := cs.dropWhile isBlank

/-- Passes over one given character after blanks. -/
def expect (c : Char) (cs : List Char) : Option (List Char) :=
  match skipBlanks cs with
  | d :: rest => if d = c then some rest else none
  | [] => none

/-! ### Strings -/

/-- What one place of a string stands for: a character, or sixteen bits named by an escape. -/
inductive TextUnit where
  | char (c : Char)
  | code (n : Nat)

/-- The value of a hexadecimal digit of either case. -/
def hexValue? (c : Char) : Option Nat :=
  if c.isDigit then some (c.toNat - '0'.toNat)
  else if 'a' ≤ c ∧ c ≤ 'f' then some (c.toNat - 'a'.toNat + 10)
  else if 'A' ≤ c ∧ c ≤ 'F' then some (c.toNat - 'A'.toNat + 10)
  else none

/-- The value of four hexadecimal digits. -/
def hexCode? (a b c d : Char) : Option Nat := do
  some (((← hexValue? a) * 16 + (← hexValue? b)) * 16 * 16
    + ((← hexValue? c) * 16 + (← hexValue? d)))

/-- The character that a short escape names. -/
def shortEscape? (c : Char) : Option Char :=
  if c = '"' then some '"' else if c = '\\' then some '\\' else if c = '/' then some '/'
  else if c = 'b' then some '\x08' else if c = 'f' then some '\x0c'
  else if c = 'n' then some '\n' else if c = 'r' then some '\r' else if c = 't' then some '\t'
  else none

/-- The inside of a string up to its closing quotation mark. -/
def readUnits : List Char → Option (List TextUnit × List Char)
  | [] => none
  | '"' :: rest => some ([], rest)
  | '\\' :: 'u' :: a :: b :: c :: d :: rest => do
    let n ← hexCode? a b c d
    let (units, rest) ← readUnits rest
    some (.code n :: units, rest)
  | '\\' :: c :: rest => do
    let e ← shortEscape? c
    let (units, rest) ← readUnits rest
    some (.char e :: units, rest)
  | c :: rest =>
    if c.toNat < 0x20 ∨ c = '\\' then none else do
      let (units, rest) ← readUnits rest
      some (.char c :: units, rest)

/-- The first half of a surrogate pair. -/
def isLeading (n : Nat) : Bool := 0xD800 ≤ n ∧ n ≤ 0xDBFF

/-- The second half of a surrogate pair. -/
def isTrailing (n : Nat) : Bool := 0xDC00 ≤ n ∧ n ≤ 0xDFFF

/-- The characters of the units, if each half of a surrogate pair has the other half. -/
def joinUnits : List TextUnit → Option (List Char)
  | [] => some []
  | .char c :: rest => (c :: ·) <$> joinUnits rest
  | .code n :: rest =>
    if isLeading n then
      match rest with
      | .code m :: rest =>
        if isTrailing m then
          (Char.ofNat ((n - 0xD800) * 0x400 + (m - 0xDC00) + 0x10000) :: ·) <$> joinUnits rest
        else none
      | _ => none
    else if isTrailing n then none
    else (Char.ofNat n :: ·) <$> joinUnits rest

/-- A string after its opening quotation mark. -/
def readString (cs : List Char) : Option (Option String × List Char) := do
  let (units, rest) ← readUnits cs
  some (String.ofList <$> joinUnits units, rest)

/-! ### Numbers -/

/-- The digits at the front. -/
def takeDigits (cs : List Char) : List Char × List Char := cs.span (·.isDigit)

/-- The natural number that decimal digits stand for. -/
def valueOf (digits : List Char) : Nat := Nat.ofDigitChars 10 digits 0

/-- The digits after a point, if there is one. -/
def readFraction : List Char → Option (List Char × List Char)
  | '.' :: cs => if (takeDigits cs).1.isEmpty then none else some (takeDigits cs)
  | cs => some ([], cs)

/-- The exponent, if there is one. -/
def readExponent : List Char → Option (Option Int × List Char)
  | c :: cs =>
    if c = 'e' ∨ c = 'E' then
      let (negative, cs) := match cs with
        | '+' :: cs => (false, cs)
        | '-' :: cs => (true, cs)
        | cs => (false, cs)
      let (digits, rest) := takeDigits cs
      if digits.isEmpty then none
      else some (some (if negative then -(valueOf digits : Int) else valueOf digits), rest)
    else some (none, c :: cs)
  | [] => some (none, [])

/-- The whole part: a single zero, or digits that do not start with one. -/
def readWhole : List Char → Option (Nat × List Char)
  | '0' :: cs => some (0, cs)
  | cs =>
    let (digits, rest) := takeDigits cs
    if digits.isEmpty then none else some (valueOf digits, rest)

/-- A number. -/
def readNumeral (cs : List Char) : Option (Numeral × List Char) := do
  let (negative, cs) := match cs with
    | '-' :: cs => (true, cs)
    | cs => (false, cs)
  let (whole, cs) ← readWhole cs
  let (fraction, cs) ← readFraction cs
  let (exponent, cs) ← readExponent cs
  some (⟨negative, whole, fraction, exponent⟩, cs)

/-! ### Values -/

mutual

/-- A value after blanks. -/
def readValue : Nat → List Char → Option (Document × List Char)
  | 0, _ => none
  | depth + 1, cs =>
    match skipBlanks cs with
    | 'n' :: 'u' :: 'l' :: 'l' :: rest => some (.null, rest)
    | 't' :: 'r' :: 'u' :: 'e' :: rest => some (.bool true, rest)
    | 'f' :: 'a' :: 'l' :: 's' :: 'e' :: rest => some (.bool false, rest)
    | '"' :: rest => do
      let (text, rest) ← readString rest
      some (.string text, rest)
    | '[' :: rest =>
      match expect ']' rest with
      | some rest => some (.array [], rest)
      | none => do
        let (items, rest) ← readItems depth rest
        some (.array items, rest)
    | '{' :: rest =>
      match expect '}' rest with
      | some rest => some (.object [], rest)
      | none => do
        let (members, rest) ← readMembers depth rest
        some (.object members, rest)
    | rest => do
      let (n, rest) ← readNumeral rest
      some (.number n, rest)

/-- One item or more, up to the closing bracket. -/
def readItems : Nat → List Char → Option (List Document × List Char)
  | 0, _ => none
  | depth + 1, cs => do
    let (item, rest) ← readValue depth cs
    match expect ',' rest with
    | some rest => do
      let (items, rest) ← readItems depth rest
      some (item :: items, rest)
    | none => do
      let rest ← expect ']' rest
      some ([item], rest)

/-- One member or more, up to the closing brace. -/
def readMembers : Nat → List Char → Option (List (Option String × Document) × List Char)
  | 0, _ => none
  | depth + 1, cs => do
    let rest ← expect '"' cs
    let (key, rest) ← readString rest
    let rest ← expect ':' rest
    let (value, rest) ← readValue depth rest
    match expect ',' rest with
    | some rest => do
      let (members, rest) ← readMembers depth rest
      some ((key, value) :: members, rest)
    | none => do
      let rest ← expect '}' rest
      some ([(key, value)], rest)

end

/-- **The document of a text**, if the text is JSON. -/
def read (text : String) : Option Document := do
  let cs := text.toList
  let (document, rest) ← readValue (2 * cs.length + 2) cs
  if (skipBlanks rest).isEmpty then some document else none

end Document

end ClusterCatalog
