/-!
# Written values

A `Document` is the shape of one JSON text (RFC 8259) before anybody asks what it stands for: the
members of an object are kept in the order and with the repetitions of the text, and a number is
its decimal numeral. Readers of a type take a document apart (`Json/Codec`), writers build one, and
`Document.render` is the only place where characters are put out.

Three decisions make up the written form:

* nothing is written between the tokens;
* in a string only the quotation mark, the backslash and the characters below U+0020 are escaped,
  the latter by their short name where they have one and else as four lower-case hexadecimal
  digits; every other character stands for itself;
* an exponent is written with its sign, after a small `e`.
-/

namespace ClusterCatalog

/-- **A decimal numeral**, as in a JSON text: sign, whole part, digits after the point and
exponent. -/
structure Numeral where
  negative : Bool
  /-- The whole part; a text has no leading zeros, so its digits are determined. -/
  whole : Nat
  /-- The digits after the point, none if there is no point. -/
  fraction : List Char
  /-- The power of ten, if one is written. -/
  exponent : Option Int
deriving DecidableEq, Inhabited

namespace Numeral

/-- The numeral of a natural number. -/
def ofNat (n : Nat) : Numeral := ⟨false, n, [], none⟩

/-- The numeral of an integer. -/
def ofInt (i : Int) : Numeral := ⟨i < 0, i.natAbs, [], none⟩

/-- Whether neither point nor exponent is written. -/
def isWhole (n : Numeral) : Bool := n.fraction.isEmpty && n.exponent.isNone

/-- The decimal digits of a natural number, without leading zeros. -/
def decimal (n : Nat) : List Char := Nat.toDigits 10 n

/-- The characters of a numeral. -/
def render (n : Numeral) : List Char :=
  (if n.negative then ['-'] else [])
    ++ decimal n.whole
    ++ (if n.fraction.isEmpty then [] else '.' :: n.fraction)
    ++ match n.exponent with
      | none => []
      | some e => 'e' :: (if e < 0 then '-' else '+') :: decimal e.natAbs

end Numeral

/-- **The shape of a JSON text.** A string is `none` if one of its escapes names half of a
surrogate pair without the other half: such a text can be passed over, but it stands for no
characters. -/
inductive Document where
  | null
  | bool (value : Bool)
  | number (numeral : Numeral)
  | string (text : Option String)
  | array (items : List Document)
  | object (members : List (Option String × Document))
deriving Inhabited

namespace Document

/-- The document of a text. -/
def ofString (s : String) : Document := .string (some s)

/-- The document of a natural number. -/
def ofNat (n : Nat) : Document := .number (.ofNat n)

/-- The document of a list of texts. -/
def ofStrings (l : List String) : Document := .array (l.map ofString)

/-- The document of a text or of its absence. -/
def ofString? (s : Option String) : Document := s.elim .null ofString

/-- An object of named members in the given order. -/
def ofMembers (members : List (String × Document)) : Document :=
  .object (members.map fun m => (some m.1, m.2))

/-! ### Characters -/

/-- How one character stands inside a string. -/
def escape (c : Char) : List Char :=
  if c = '"' then ['\\', '"']
  else if c = '\\' then ['\\', '\\']
  else if c = '\x08' then ['\\', 'b']
  else if c = '\x0c' then ['\\', 'f']
  else if c = '\n' then ['\\', 'n']
  else if c = '\r' then ['\\', 'r']
  else if c = '\t' then ['\\', 't']
  else if c.toNat < 0x20 then
    ['\\', 'u', '0', '0', Nat.digitChar (c.toNat / 16), Nat.digitChar (c.toNat % 16)]
  else [c]

/-- A string between its quotation marks. The escape of a lone surrogate stands for a string that
has no characters of its own. -/
def renderString (text : Option String) : List Char :=
  '"' :: (text.elim ['\\', 'u', 'd', '8', '0', '0'] fun s => s.toList.flatMap escape) ++ ['"']

mutual

/-- The characters of a document. -/
def render : Document → List Char
  | .null => ['n', 'u', 'l', 'l']
  | .bool true => ['t', 'r', 'u', 'e']
  | .bool false => ['f', 'a', 'l', 's', 'e']
  | .number n => n.render
  | .string s => renderString s
  | .array [] => ['[', ']']
  | .array (d :: ds) => '[' :: render d ++ renderItems ds
  | .object [] => ['{', '}']
  | .object ((k, d) :: ms) => '{' :: renderString k ++ ':' :: render d ++ renderMembers ms

/-- The items after the first one, with the closing bracket. -/
def renderItems : List Document → List Char
  | [] => [']']
  | d :: ds => ',' :: render d ++ renderItems ds

/-- The members after the first one, with the closing brace. -/
def renderMembers : List (Option String × Document) → List Char
  | [] => ['}']
  | (k, d) :: ms => ',' :: renderString k ++ ':' :: render d ++ renderMembers ms

end

/-- The text of a document. -/
def toText (d : Document) : String := String.ofList d.render

end Document

end ClusterCatalog
