import ClusterCatalog.Tree.Basic
import ClusterCatalog.Tree.Table

/-!
# Repositories

A repository answers the four calls on a tree of nodes. There are two: the tree in memory and the
table of a file.
-/

namespace ClusterCatalog

/-- **An open repository.** -/
inductive Repository where
  | memory (tree : Tree)
  | file (table : NodeTable)
deriving DecidableEq, Inhabited

namespace Repository

/-- The text of a node. -/
def query : Repository → Path → Option String
  | memory t, path => t.query path
  | file t, path => t.query path

/-- The names of the direct children of a node, in ascending order. -/
def children : Repository → Path → List String
  | memory t, path => t.children path
  | file t, path => t.children path

/-- Writes the text of a node. -/
def persist : Repository → Path → String → Repository
  | memory t, path, value => memory (t.persist path value)
  | file t, path, value => file (t.persist path value)

/-- Removes a node and everything below it. -/
def delete : Repository → Path → Repository
  | memory t, path => memory (t.delete path)
  | file t, path => file (t.delete path)

/-- The nodes, by path. -/
def nodes : Repository → SortedMap String
  | memory t => t.nodes
  | file t => t.rows

/-- The path of a child as it is reached by going down; nothing is put between the root and a
child. -/
def step (path : Path) (name : String) : Path := Path.below path ++ name

/-- The nodes that are reached from a path by going down from child to child, at most `depth`
times. -/
def descend (r : Repository) : Nat → Path → List (Path × String)
  | 0, _ => []
  | depth + 1, path =>
    (r.children path).flatMap fun name =>
      (step path name, (r.query (step path name)).getD "") :: r.descend depth (step path name)

/-- **The nodes reached from a path**: no path is longer than the longest stored one, so going down
ends there. -/
def reachable (r : Repository) (path : Path) : SortedMap String :=
  SortedMap.ofList (r.descend ((r.nodes.keys.map String.length).foldl max 0 + 1) path)

end Repository

end ClusterCatalog
