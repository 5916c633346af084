import ClusterCatalog.SettingsFile.Setting
import ClusterCatalog.SettingsFile.Text

/-!
# Laying the settings of a file together

The settings of a node are one table, to which a file is added name by name. Two rules go beyond
what is written in the file.

* Capital letters make no difference in a name, so that two tables of a file whose names differ by
  them only are one table.
* A name at the top level of a file may be a path: names separated by points, and places of lists
  in brackets. `"log.level" = "info"` is the setting `level` of the table `log`. A name that is not
  a path is taken as it is.

A table is added member by member, and any other value takes the place of what was there. What is
on a path and is not a table, or not a list where a place follows, becomes an empty one first.
-/

namespace ClusterCatalog

namespace SettingsFile

/-! ### Names and paths -/

/-- A capital letter made small. The names of settings are ASCII, so of all other capital letters
only the Kelvin sign matters, whose small letter is `k`. -/
def lowerCharacter (c : Char) : Char := if c = '\u212a' then 'k' else c.toLower

/-- A name without capital letters. -/
def lower (name : String) : String := String.ofList (name.toList.map lowerCharacter)

/-- **A step on the way to a setting.** -/
inductive Step where
  | name (name : String)
  /-- The place of a list, counted from its end if it is negative. -/
  | place (index : Int)
deriving DecidableEq, Inhabited

/-- Whether a character can stand in a name on a path. -/
def isPathCharacter (c : Char) : Bool := isNameCharacter c || c == ' '

/-- A place after its opening bracket: a number of 64 bits with sign, with blanks around it. -/
def place (cs : List Char) : Option (Step × List Char) :=
  let (negative, rest) := match skipBlanks cs with
    | '-' :: rest => (true, rest)
    | rest => (false, rest)
  let (digits, rest) := rest.span Char.isDigit
  let magnitude : Int := Nat.ofDigitChars 10 digits 0
  let index := if negative then -magnitude else magnitude
  match skipBlanks rest with
  | ']' :: rest =>
    if digits.isEmpty ∨ index < -9223372036854775808 ∨ 9223372036854775807 < index then none
    else some (.place index, rest)
  | _ => none

/-- The steps of a path after its first name, at most `count`. -/
def steps (count : Nat) (cs : List Char) : Option (List Step) :=
  match count, cs with
  | _, [] => some []
  | count + 1, '.' :: rest =>
    let (word, rest) := rest.span isPathCharacter
    if word.isEmpty then none else do some (.name (String.ofList word) :: (← steps count rest))
  | count + 1, '[' :: rest => do
    let (step, rest) ← place rest
    some (step :: (← steps count rest))
  | _, _ => none

/-- **The path of a name** at the top level. -/
def path (name : String) : List Step :=
  let (word, rest) := name.toList.span isPathCharacter
  let found := if word.isEmpty then none else steps rest.length rest
  match found with
  | some found => .name (String.ofList word) :: found
  | none => [.name name]

/-! ### Putting a setting -/

/-- A table with what a name stands for replaced; anything else is taken for an empty table. -/
def setMember (name : String) (setting : Setting) (target : Setting) : Setting :=
  .table (insert target.members)
where
  /-- Replaces the member of the name, or adds it at the end. -/
  insert : List (String × Setting) → List (String × Setting)
    | [] => [(name, setting)]
    | (other, found) :: rest =>
      if other = name then (name, setting) :: rest else (other, found) :: insert rest

mutual

/-- **What is there after a setting has been added** to it: with a table, its members have been
added, and any other setting has taken the place of what was there. -/
def overlay : Setting → Setting → Setting
  | .table members, .absent => overlayMembers members (.table [])
  | .table members, target => overlayMembers members target
  | setting, _ => setting

/-- A table after members have been added to it. -/
def overlayMembers : List (String × Setting) → Setting → Setting
  | [], target => target
  | (name, setting) :: rest, target =>
    let found := (target.member? (lower name)).getD .absent
    overlayMembers rest (setMember (lower name) (overlay setting found) target)

end

/-- The greatest place that a list can be extended to. -/
def maxPlace : Nat := 16777216

/-- The place of an index in a list of a length; none if it lies before the list or is out of
reach. -/
def placeOf? (length : Nat) (index : Int) : Option Nat :=
  let place := if 0 ≤ index then index else length + index
  if 0 ≤ place ∧ place ≤ maxPlace then some place.toNat else none

/-- A list with as many absent settings at the end as the given place needs. -/
def extend (items : List Setting) (place : Nat) : List Setting :=
  items ++ List.replicate (place + 1 - items.length) .absent

/-- **Puts a setting** at the end of a path; none if the path has a place that no list can have.
At the end of a path a place is filled anew, while a name is added to. -/
def put (setting : Setting) : List Step → Setting → Option Setting
  | [], target => some (overlay setting target)
  | .name name :: path, target => do
    let found := (target.member? name).getD .absent
    some (setMember name (← put setting path found) target)
  | .place index :: path, target => do
    let place ← placeOf? target.items.length index
    let items := extend target.items place
    let found ← if path.isEmpty then some setting else put setting path (items.getD place .absent)
    some (.list (items.set place found))

/-- **The settings of a file as one table**; none if a name has a place that no list can have. -/
def layer (file : List (String × Setting)) : Option Setting :=
  file.foldlM (fun target member => put member.2 (path (lower member.1)) target) (.table [])

end SettingsFile

end ClusterCatalog
