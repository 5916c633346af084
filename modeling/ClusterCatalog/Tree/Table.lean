import ClusterCatalog.SortedMap
import ClusterCatalog.Tree.Path

/-!
# The tree in one ordered table

A table of a database file knows nothing of paths: its rows are ordered by their keys, and it offers
a look-up, an insertion, a removal and a scan that starts at a key and goes up. `NodeTable` keeps
the nodes of a tree in such a table. The nodes below a path are the rows whose keys start with a
given text; they stand together in the order of the keys, so a scan that starts at that text and
stops at the first key that does not start with it visits them all.

Each operation is one transaction: the rows it touches change together.
-/

namespace ClusterCatalog

/-- **The rows of a table**, keyed by path and ordered by key. -/
structure NodeTable where
  rows : SortedMap String
deriving DecidableEq

namespace NodeTable

/-- The table without rows. -/
def empty : NodeTable := ⟨∅⟩

instance : Inhabited NodeTable := ⟨empty⟩

/-- The rows from a key on, upwards. -/
def scanFrom (t : NodeTable) (key : String) : List (String × String) :=
  t.rows.entries.dropWhile fun row => row.1 < key

/-- The rows whose keys start with a text. -/
def scanBelow (t : NodeTable) (front : String) : List (String × String) :=
  (t.scanFrom front).takeWhile fun row => Path.startsWith row.1 front

/-- Inserts the rows of the missing nodes above a path, then the row of the path. -/
def persist (t : NodeTable) (path : Path) (value : String) : NodeTable :=
  let insertMissing (rows : SortedMap String) (ancestor : Path) : SortedMap String :=
    if (rows.get? ancestor).isNone then rows.insert ancestor "" else rows
  ⟨((Path.ancestors path).foldl insertMissing t.rows).insert path value⟩

/-- The text of a node. -/
def query (t : NodeTable) (path : Path) : Option String := t.rows.get? path

/-- The names of the direct children of a node, in ascending order. -/
def children (t : NodeTable) (path : Path) : List String :=
  (t.scanBelow (Path.below path)).filterMap fun row => Path.childName? (Path.below path) row.1

/-- Removes the rows below a path, which are collected first, then the row of the path. -/
def delete (t : NodeTable) (path : Path) : NodeTable :=
  let keys := (t.scanBelow (Path.below path)).map (·.1)
  ⟨(keys.foldl (fun rows key => rows.erase key) t.rows).erase path⟩

end NodeTable

end ClusterCatalog
