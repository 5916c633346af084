import ClusterCatalog.SettingsFile.Setting

/-!
# The sections of a file while it is read

A file names its tables in three ways. A header `[a.b]` opens the table `b` of the table `a`, a
header `[[a.b]]` opens one more table of a list, and a key `a.b = 1` names the table `a` on the way
to its setting. No name may be given twice, and a table may be given only once: its `Origin` tells
which of the three ways are still open to it.

* A table that a header only passed through may get a header of its own, once.
* A table that a key named gets further settings by keys only, below the same header.
* A table that has had its header, and every value that was written as a whole, is complete: no
  key of another table leads into it.
* A header or a key that passes through a list of tables means the last of them.
-/

namespace ClusterCatalog

namespace SettingsFile

/-- How a table came to be. -/
inductive Origin where
  /-- It has had its own header. -/
  | header
  /-- A header passed through it. -/
  | passed
  /-- A key with several names led to it. -/
  | key
deriving DecidableEq, Inhabited

/-- **What a name stands for** in a file that is being read. -/
inductive Node where
  | value (setting : Setting)
  | table (origin : Origin) (members : List (String × Node))
  /-- A list of tables that have a header each: the earlier ones and the last one. -/
  | tables (earlier : List (List (String × Node))) (last : List (String × Node))
deriving Inhabited

/-- The members of a table in the order in which they came up. -/
abbrev Members := List (String × Node)

namespace Members

/-- Changes what a name stands for, `none` being no such member. -/
def alter (name : String) (change : Option Node → Option Node) : Members → Option Members
  | [] => do some [(name, ← change none)]
  | (other, node) :: rest =>
    if other = name then do some ((name, ← change (some node)) :: rest)
    else do some ((other, node) :: (← alter name change rest))

/-- Changes the table to which the names of a header lead. -/
def within (change : Members → Option Members) : List String → Members → Option Members
  | [], members => change members
  | name :: path, members =>
    members.alter name fun
      | none => do some (.table .passed (← within change path []))
      | some (.table origin inner) => do some (.table origin (← within change path inner))
      | some (.tables earlier last) => do some (.tables earlier (← within change path last))
      | some (.value _) => none

/-- **The header of a table.** -/
def openTable (path : List String) (name : String) (members : Members) : Option Members :=
  members.within (fun inner => inner.alter name fun
    | none => some (.table .header [])
    | some (.table .passed found) => some (.table .header found)
    | some _ => none) path

/-- **The header of one more table** of a list. -/
def openNextTable (path : List String) (name : String) (members : Members) : Option Members :=
  members.within (fun inner => inner.alter name fun
    | none => some (.tables [] [])
    | some (.tables earlier last) => some (.tables (earlier ++ [last]) [])
    | some _ => none) path

/-- **Adds a setting** under the names of its key, all but the last one leading through tables. -/
def add (name : String) (setting : Setting) : List String → Members → Option Members
  | [], members =>
    members.alter name fun
      | none => some (.value setting)
      | some _ => none
  | through :: path, members =>
    members.alter through fun
      | none => do some (.table .key (← add name setting path []))
      | some (.table .key inner) => do some (.table .key (← add name setting path inner))
      -- only a way through: the setting itself has to be in a table that a key named
      | some (.table .passed inner) =>
        if path.isEmpty then none else do some (.table .passed (← add name setting path inner))
      | some (.tables earlier last) =>
        if path.isEmpty then none else do some (.tables earlier (← add name setting path last))
      | some (.table .header _) | some (.value _) => none

end Members

mutual

/-- The setting that a node has become. -/
def Node.setting : Node → Setting
  | .value setting => setting
  | .table _ members => .table (Members.settings members)
  | .tables earlier last =>
    .list (Members.tableSettings earlier ++ [.table (Members.settings last)])

/-- The settings of the members of a table. -/
def Members.settings : List (String × Node) → List (String × Setting)
  | [] => []
  | (name, node) :: rest => (name, node.setting) :: Members.settings rest

/-- The tables of a list as settings. -/
def Members.tableSettings : List (List (String × Node)) → List Setting
  | [] => []
  | members :: rest => .table (Members.settings members) :: Members.tableSettings rest

end

end SettingsFile

end ClusterCatalog
