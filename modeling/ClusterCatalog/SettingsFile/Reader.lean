import ClusterCatalog.SettingsFile.Number
import ClusterCatalog.SettingsFile.Section

/-!
# Reading a file of settings

A file is a sequence of lines: the header of a table, a setting `key = value`, a comment, or
nothing. A setting belongs to the table of the last header above it. `SettingsFile.read` gives the
settings of the file as a table, or nothing if a part of it is malformed.

A value is a text, a number, a moment, `true`, `false`, a list in brackets or a table in braces. A
list may go over several lines with comments between, and may have a comma after its last item; a
table in braces stands on one line and has none. Lists and braces may be nested in each other, and
names in a key joined, up to a limit.
-/

namespace ClusterCatalog

namespace SettingsFile

/-- The greatest number of names in a key, and of lists and tables in braces around a value. -/
def maxLevels : Nat := 79

/-! ### Values -/

/-- Passes over a given word. -/
def skipWord? (word cs : List Char) : Option (List Char) :=
  if word.isPrefixOf cs then some (cs.drop word.length) else none

/-- A value that holds no others. -/
def scalar (cs : List Char) : Option (Setting × List Char) :=
  match cs with
  | '"' :: _ | '\'' :: _ => do
    let (value, rest) ← text cs
    some (.text value, rest)
  | 't' :: _ => do some (.flag true, ← skipWord? "true".toList cs)
  | 'f' :: _ => do some (.flag false, ← skipWord? "false".toList cs)
  | _ => numberOrMoment cs

/-- A way to read one value. -/
abbrev ValueReader := List Char → Option (Setting × List Char)

/-- The items of a list after its opening bracket, up to `count` of them. -/
def items (value : ValueReader) (count : Nat) (cs : List Char) :
    Option (List Setting × List Char) :=
  match count with
  | 0 => none
  | count + 1 =>
    match skipFiller false cs with
    | ']' :: rest => some ([], rest)
    | cs => do
      let (item, rest) ← value cs
      match skipFiller false rest with
      | ',' :: rest => do
        let (others, rest) ← items value count rest
        some (item :: others, rest)
      | ']' :: rest => some ([item], rest)
      | _ => none

/-- A key, the sign `=` and a value, added to the members so far. -/
def assignment (value : ValueReader) (found : Members) (cs : List Char) :
    Option (Members × List Char) := do
  match ← key maxLevels cs with
  | ((path, name), '=' :: rest) => do
    let (setting, rest) ← value (skipBlanks rest)
    some (← found.add name setting path, rest)
  | _ => none

/-- One member or more of a table in braces, up to `count` of them. -/
def inlineMembers (value : ValueReader) (count : Nat) (found : Members) (cs : List Char) :
    Option (Members × List Char) :=
  match count with
  | 0 => none
  | count + 1 => do
    let (found, rest) ← assignment value found cs
    match skipBlanks rest with
    | ',' :: rest => inlineMembers value count found rest
    | '}' :: rest => some (found, rest)
    | _ => none

/-- The members of a table after its opening brace. -/
def inlineTable (value : ValueReader) (cs : List Char) : Option (Members × List Char) :=
  match skipBlanks cs with
  | '}' :: rest => some ([], rest)
  | cs => inlineMembers value cs.length [] cs

/-- **A value** with at most `levels` lists and braces inside each other. -/
def value (levels : Nat) (cs : List Char) : Option (Setting × List Char) :=
  match levels, cs with
  | levels + 1, '[' :: rest => do
    let (found, rest) ← items (value levels) cs.length rest
    some (.list found, rest)
  | levels + 1, '{' :: rest => do
    let (found, rest) ← inlineTable (value levels) rest
    some (.table (Members.settings found), rest)
  | _, _ => scalar cs

/-! ### Lines -/

/-- What has been read of a file: its members so far, and the names of the last header. -/
structure Progress where
  members : Members := []
  here : List String := []
deriving Inhabited

/-- The header of a table, without its brackets. -/
def Progress.openTable (p : Progress) (path : List String) (name : String) : Option Progress := do
  some { members := ← p.members.openTable path name, here := path ++ [name] }

/-- The header of one more table of a list, without its brackets. -/
def Progress.openNextTable (p : Progress) (path : List String) (name : String) :
    Option Progress := do
  some { members := ← p.members.openNextTable path name, here := path ++ [name] }

/-- A line that is neither empty nor a comment, up to its last token. -/
def statement (p : Progress) (cs : List Char) : Option (Progress × List Char) := do
  match cs with
  | '[' :: '[' :: rest =>
    match ← key maxLevels rest with
    | ((path, name), ']' :: ']' :: rest) => some (← p.openNextTable path name, rest)
    | _ => none
  | '[' :: rest =>
    match ← key maxLevels rest with
    | ((path, name), ']' :: rest) => some (← p.openTable path name, rest)
    | _ => none
  | _ =>
    match ← key maxLevels cs with
    | ((path, name), '=' :: rest) =>
      let (setting, rest) ← value maxLevels (skipBlanks rest)
      some ({ p with members := ← p.members.within (Members.add name setting path) p.here }, rest)
    | _ => none

/-- The lines of a file, up to `count` of them. -/
def lines (count : Nat) (p : Progress) (cs : List Char) : Option Progress :=
  match count with
  | 0 => none
  | count + 1 => do
    let cs := skipBlanks cs
    if cs.isEmpty then some p
    else match lineEnd? cs with
      | some rest => lines count p rest
      | none =>
        let (p, rest) ← statement p cs
        lines count p (← lineEnd? rest)

/-- A text without a byte order mark at its front. -/
def withoutMark : List Char → List Char
  | '\ufeff' :: rest => rest
  | cs => cs

/-- **The settings of a file**, none if it is malformed. One byte order mark belongs to the file
and another one to the text in it, so there may be two. -/
def read (text : String) : Option (List (String × Setting)) := do
  let cs := withoutMark (withoutMark text.toList)
  let found ← lines (cs.length + 1) {} cs
  some (Members.settings found.members)

end SettingsFile

end ClusterCatalog
