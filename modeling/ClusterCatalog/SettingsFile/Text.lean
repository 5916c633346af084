import ClusterCatalog.Json.Reader

/-!
# Characters, texts and names in a file of settings

A text stands in one of four forms. Between quotation marks a backslash starts an escape; between
apostrophes every character stands for itself. With three marks on either side the text may go
over several lines, and up to two marks of its own may stand anywhere in it, the end included.

A reader takes characters and gives what it read with the characters that are left.
-/

namespace ClusterCatalog

namespace SettingsFile

/-! ### Characters and lines -/

/-- Whether a character is blank inside a line. -/
def isBlank (c : Char) : Bool := c == ' ' || c == '\t'

/-- Whether a character may stand in a comment or in a text as it is: all but the control
characters, the tab apart. -/
def isPlain (c : Char) : Bool := c == '\t' || (0x20 ≤ c.toNat && c.toNat != 0x7F)

/-- Passes over blanks. -/
def skipBlanks (cs : List Char) : List Char := cs.dropWhile isBlank

/-- What follows the end of a line, which is a line feed or a carriage return with a line feed. -/
def newline? : List Char → Option (List Char)
  | '\n' :: rest => some rest
  | '\r' :: '\n' :: rest => some rest
  | _ => none

/-- **What follows a line** of which nothing is left but blanks and a comment. The last line needs
no end. -/
def lineEnd? (cs : List Char) : Option (List Char) :=
  let rest := match skipBlanks cs with
    | '#' :: comment => comment.dropWhile isPlain
    | rest => rest
  if rest.isEmpty then some [] else newline? rest

/-- Passes over blanks, line ends and comments, `comment` saying that a comment has begun. -/
def skipFiller (comment : Bool) : List Char → List Char
  | '\n' :: rest => skipFiller false rest
  | '\r' :: '\n' :: rest => skipFiller false rest
  | c :: rest =>
    if c == '#' then skipFiller true rest
    else if isBlank c || (comment && isPlain c) then skipFiller comment rest
    else c :: rest
  | [] => []

/-! ### Escapes -/

/-- The letters after a backslash and the characters that they name. -/
def shortEscapes : List (Char × Char) :=
  [('b', '\x08'), ('t', '\t'), ('n', '\n'), ('f', '\x0c'), ('r', '\r'), ('"', '"'), ('\\', '\\')]

/-- The character of a number, which half of a surrogate pair is not. -/
def scalar? (code : Nat) : Option Char :=
  if code.isValidChar then some (Char.ofNat code) else none

/-- The character of eight hexadecimal digits, given in two halves. -/
def longEscape? (high low : Option Nat) : Option Char := do scalar? ((← high) * 65536 + (← low))

/-! ### Texts -/

/-- The rest of a text between quotation marks, with what follows the closing mark; `seen` is what
has been read of it, backwards. -/
def quoted (seen : List Char) : List Char → Option (List Char × List Char)
  | '"' :: rest => some (seen.reverse, rest)
  | '\\' :: 'u' :: a :: b :: c :: d :: rest => do
    quoted ((← scalar? (← Document.hexCode? a b c d)) :: seen) rest
  | '\\' :: 'U' :: a :: b :: c :: d :: e :: f :: g :: h :: rest => do
    let char ← longEscape? (Document.hexCode? a b c d) (Document.hexCode? e f g h)
    quoted (char :: seen) rest
  | '\\' :: c :: rest => do quoted ((← shortEscapes.lookup c) :: seen) rest
  | c :: rest => if isPlain c then quoted (c :: seen) rest else none
  | [] => none

/-- The rest of a text between three quotation marks. A backslash at the end of a line takes away
all blanks and line ends up to the next other character; `joining` says that this is going on. -/
def quotedLines (joining : Bool) (seen : List Char) : List Char → Option (List Char × List Char)
  | '"' :: '"' :: '"' :: '"' :: '"' :: rest => some (('"' :: '"' :: seen).reverse, rest)
  | '"' :: '"' :: '"' :: '"' :: rest => some (('"' :: seen).reverse, rest)
  | '"' :: '"' :: '"' :: rest => some (seen.reverse, rest)
  | '\n' :: rest => quotedLines joining (if joining then seen else '\n' :: seen) rest
  | '\r' :: '\n' :: rest => quotedLines joining (if joining then seen else '\n' :: seen) rest
  | '\\' :: 'u' :: a :: b :: c :: d :: rest => do
    quotedLines false ((← scalar? (← Document.hexCode? a b c d)) :: seen) rest
  | '\\' :: 'U' :: a :: b :: c :: d :: e :: f :: g :: h :: rest => do
    let char ← longEscape? (Document.hexCode? a b c d) (Document.hexCode? e f g h)
    quotedLines false (char :: seen) rest
  | '\\' :: c :: rest =>
    match shortEscapes.lookup c with
    | some char => quotedLines false (char :: seen) rest
    | none =>
      if (newline? (skipBlanks (c :: rest))).isSome then quotedLines true seen rest else none
  | c :: rest =>
    if joining && isBlank c then quotedLines true seen rest
    else if isPlain c then quotedLines false (c :: seen) rest
    else none
  | [] => none

/-- The rest of a text between apostrophes. -/
def literal (cs : List Char) : Option (List Char × List Char) :=
  match cs.span (· != '\'') with
  | (text, _ :: rest) => if text.all isPlain then some (text, rest) else none
  | (_, []) => none

/-- The rest of a text between three apostrophes. -/
def literalLines (seen : List Char) : List Char → Option (List Char × List Char)
  | '\'' :: '\'' :: '\'' :: '\'' :: '\'' :: rest => some (('\'' :: '\'' :: seen).reverse, rest)
  | '\'' :: '\'' :: '\'' :: '\'' :: rest => some (('\'' :: seen).reverse, rest)
  | '\'' :: '\'' :: '\'' :: rest => some (seen.reverse, rest)
  | '\n' :: rest => literalLines ('\n' :: seen) rest
  | '\r' :: '\n' :: rest => literalLines ('\n' :: seen) rest
  | c :: rest => if isPlain c then literalLines (c :: seen) rest else none
  | [] => none

/-- A text without the line end that it starts with. -/
def dropNewline (cs : List Char) : List Char := (newline? cs).getD cs

/-- **A text** of any form. -/
def text (cs : List Char) : Option (String × List Char) := do
  let (value, rest) ← match cs with
    | '"' :: '"' :: '"' :: rest => quotedLines false [] (dropNewline rest)
    | '"' :: rest => quoted [] rest
    | '\'' :: '\'' :: '\'' :: rest => literalLines [] (dropNewline rest)
    | '\'' :: rest => literal rest
    | _ => none
  some (String.ofList value, rest)

/-! ### Names -/

/-- Whether a character can stand in a name without marks. -/
def isNameCharacter (c : Char) : Bool := c.isAlphanum || c == '_' || c == '-'

/-- One name: a text on one line, or a word. -/
def name (cs : List Char) : Option (String × List Char) := do
  let (value, rest) ← match cs with
    | '"' :: rest => quoted [] rest
    | '\'' :: rest => literal rest
    | _ =>
      let (word, rest) := cs.span isNameCharacter
      if word.isEmpty then none else some (word, rest)
  some (String.ofList value, rest)

/-- **A key**: names separated by points, with blanks anywhere around them. It has at most `limit`
names and is given as its names but the last one, and the last one. -/
def key (limit : Nat) (cs : List Char) : Option ((List String × String) × List Char) :=
  match limit with
  | 0 => none
  | limit + 1 => do
    let (first, rest) ← name (skipBlanks cs)
    match skipBlanks rest with
    | '.' :: rest => do
      let ((names, last), rest) ← key limit rest
      some ((first :: names, last), rest)
    | rest => some (([], first), rest)

end SettingsFile

end ClusterCatalog
