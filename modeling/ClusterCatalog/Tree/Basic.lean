import ClusterCatalog.SortedMap
import ClusterCatalog.Tree.Path

/-!
# The configuration tree

A `Tree` holds a text for each of its nodes. Writing a node creates the nodes above it, with empty
text, so that each node is found by going down from the root; removing a node removes everything
below it. The nodes are ordered by their paths, and those below a path stand together, so a listing
starts at the first of them and stops after the last. There is no operation on several nodes at once.
-/

namespace ClusterCatalog

/-- **A tree of nodes**, each with a text, keyed by path. -/
structure Tree where
  nodes : SortedMap String
deriving DecidableEq

namespace Tree

/-- The tree without nodes. -/
def empty : Tree := ⟨∅⟩

instance : Inhabited Tree := ⟨empty⟩

/-- Creates a node with empty text unless it exists. -/
def touch (t : Tree) (path : Path) : Tree :=
  if t.nodes.contains path then t else ⟨t.nodes.insert path ""⟩

/-- Writes the text of a node and creates the missing nodes above it. -/
def persist (t : Tree) (path : Path) (value : String) : Tree :=
  ⟨((Path.ancestors path).foldl touch t).nodes.insert path value⟩

/-- The text of a node. -/
def query (t : Tree) (path : Path) : Option String := t.nodes.get? path

/-- The nodes whose paths start with a text: from that text on, upwards, as long as they do. -/
def scanBelow (t : Tree) (front : String) : List (Path × String) :=
  (t.nodes.entries.dropWhile fun node => node.1 < front).takeWhile fun node =>
    Path.startsWith node.1 front

/-- The names of the direct children of a node, in ascending order. -/
def children (t : Tree) (path : Path) : List String :=
  (t.scanBelow (Path.below path)).filterMap fun node => Path.childName? (Path.below path) node.1

/-- Removes a node and everything below it. -/
def delete (t : Tree) (path : Path) : Tree :=
  ⟨t.nodes.filter fun p _ => p != path && !Path.startsWith p (Path.below path)⟩

/-- Number of nodes. -/
def size (t : Tree) : Nat := t.nodes.size

end Tree

end ClusterCatalog
