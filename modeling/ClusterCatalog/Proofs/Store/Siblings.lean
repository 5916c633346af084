import ClusterCatalog.Proofs.Tree.Lookup
import ClusterCatalog.Store.Rules
import ClusterCatalog.Store.Schemas
import ClusterCatalog.Store.Units

/-!
# Dropping one of several siblings

Databases, the schemas of a database, the tables and the views of a schema, and the rules and the
storage units of a database are each kept side by side below one node: a *shelf*. Dropping one of them
removes its node and every node whose path starts with what the paths below it start with
(`Path.below`). For this to be the item and nothing else, two things have to hold.

* Names that continue each other, such as `d` and `d1`, have to be told apart. This is what the `/` after
  the name is for: paths of siblings are apart (`Path.apart_child`), whatever their names are.
* The path of the item must not end in `/`, since `Path.below` puts no second one there. It does if the
  name is empty, and then the paths below it start as those of all its siblings do.

Nothing keeps a caller from giving the empty name, so the second condition can fail. `Shelf.query_drop`
says which nodes are removed, for every name; `Shelf.spares_iff` says when a sibling is spared.
-/

namespace ClusterCatalog

open Plan Repository

namespace Path

/-- The path of a child without a name ends in `/` already. -/
theorem below_child_empty (p : Path) : below (child p "") = child p "" := by
  have hlast : (child p "").toList.getLast? = some '/' := by
    rw [toList_child]
    exact List.getLast?_concat
  rw [below, if_pos hlast]

/-- **What is removed with a child** is what it covers, and everything below its parent if it has no
name. -/
theorem removed_with_child_iff {p q : Path} {name : String} (hname : '/' ∉ name.toList) :
    q = child p name ∨ startsWith q (below (child p name)) = true
      ↔ (child p name).Covers q ∨ name = "" ∧ p.IsAbove q := by
  rw [startsWith_iff]
  by_cases hempty : name = ""
  · subst hempty
    have hfront : (below (child p "")).toList <+: q.toList ↔ p.IsAbove q := by
      rw [below_child_empty, toList_child]
      exact Iff.rfl
    rw [hfront, and_iff_right rfl]
    -- the child stands below its parent, and so does what it covers
    have hchild : p.IsAbove (child p "") := isAbove_child p ""
    constructor
    · rintro (rfl | habove)
      · exact .inr hchild
      · exact .inr habove
    · rintro (hcovers | habove)
      · exact .inr (hchild.trans_covers hcovers)
      · exact .inr habove
  · have hnamed : ¬ (name = "" ∧ p.IsAbove q) := fun h => hempty h.1
    rw [toList_below_child ⟨hempty, hname⟩, or_iff_left hnamed, eq_comm]
    exact Iff.rfl

end Path

/-- **A shelf**: the place of all items of one kind that are told apart by their names only. -/
inductive Shelf where
  | databases
  | schemas (db : String)
  | tables (db schema : String)
  | views (db schema : String)
  | rules (db : String)
  | units (db : String)

namespace Shelf

/-- The node that the items stand below. -/
def parent : Shelf → Path
  | databases => Path.metadataRoot
  | schemas db => Path.schemas db
  | tables db schema => Path.tables db schema
  | views db schema => Path.views db schema
  | rules db => Path.databaseRules db
  | units db => Path.storageUnits db

/-- The node of an item. -/
def node : Shelf → String → Path
  | databases, name => Path.database name
  | schemas db, name => Path.schema db name
  | tables db schema, name => Path.table db schema name
  | views db schema, name => Path.view db schema name
  | rules db, name => Path.databaseRule db name
  | units db, name => Path.storageUnit db name

/-- The operation that drops an item. -/
def drop : Shelf → String → Access Unit
  | databases, name => Stored.dropDatabase name
  | schemas db, name => Stored.dropSchema db name
  | tables db schema, name => Stored.dropTable db schema name
  | views db schema, name => Stored.dropView db schema name
  | rules db, name => Stored.deleteRule db name
  | units db, name => Stored.deleteUnit db name

/-- All nodes of a shelf are children of one node. -/
theorem node_eq_child (x : Shelf) (name : String) : x.node name = Path.child x.parent name := by
  cases x <;> rfl

/-- Whatever the kind of an item, it is dropped by removing its node. -/
theorem drop_eq_delete (x : Shelf) (name : String) : x.drop name = Access.delete (x.node name) := by
  cases x <;> rfl

variable (x : Shelf) {n m : String} (r : Repository)

/-- **What dropping an item removes**: what is at or below its node, and what is at or below the node of
any sibling if the item has no name. -/
theorem query_drop (hn : '/' ∉ n.toList) (q : Path) :
    ((x.drop n).run answer r).2.query q
      = if (x.node n).Covers q ∨ n = "" ∧ x.parent.IsAbove q then none else r.query q := by
  rw [drop_eq_delete]
  show (r.delete (x.node n)).query q = _
  rw [query_delete, node_eq_child]
  exact if_congr (Path.removed_with_child_iff hn) rfl rfl

/-- **An item is spared** when another one is dropped: nothing changes at or below its node. What is below a
node has a path that continues that of the node after a `/`, also where the item has no name. -/
def Spares (n m : String) : Prop :=
  ∀ q, (x.node m).Covers q → ((x.drop n).run answer r).2.query q = r.query q

/-- **Dropping an item leaves a sibling alone** just if the item that is dropped has a name, or there is
nothing at or below the node of the sibling in the first place. -/
theorem spares_iff (hn : '/' ∉ n.toList) (hm : '/' ∉ m.toList) (hne : n ≠ m) :
    x.Spares r n m ↔ n ≠ "" ∨ ∀ q, (x.node m).Covers q → r.query q = none := by
  have hapart : (x.node n).Apart (x.node m) := by
    rw [node_eq_child, node_eq_child]
    exact Path.apart_child hn hm hne
  have hbelow : x.parent.IsAbove (x.node m) := by
    rw [node_eq_child]
    exact Path.isAbove_child x.parent m
  by_cases hempty : n = ""
  · -- the sibling is removed as well, so it is spared if there is nothing to be removed
    rw [or_iff_right (not_not_intro hempty)]
    -- the path of the empty name ends with a slash, so everything beside it is below it
    have hgone : ∀ q, (x.node m).Covers q → ((x.drop n).run answer r).2.query q = none := by
      intro q hq
      rw [query_drop x r hn, if_pos (.inr ⟨hempty, hbelow.trans_covers hq⟩)]
    constructor
    · intro hspares q hq
      exact (hspares q hq).symm.trans (hgone q hq)
    · intro hnothing q hq
      exact (hgone q hq).trans (hnothing q hq).symm
  · -- a name that is not empty lies apart from all others
    refine iff_of_true (fun q hq => ?_) (.inl hempty)
    rw [query_drop x r hn, if_neg]
    rintro (hcovers | ⟨h, -⟩)
    · exact (hapart.mono hcovers hq).1 (.refl q)
    · exact hempty h

/-- A database is not dropped with another one whose name its own name continues. -/
theorem spares_continued_name :
    let r := (Repository.memory .empty).persist "/metadata/d1/rules" ""
    r.query "/metadata/d1" = some "" ∧ databases.Spares r "d" "d1" := by
  refine ⟨by decide, ?_⟩
  exact (spares_iff databases _ (by decide) (by decide) (by decide)).2 (.inl (by decide))

/-- Dropping the database without a name drops the others. -/
theorem not_always_spares :
    ¬ ∀ (x : Shelf) (r : Repository) (n m : String), '/' ∉ n.toList → '/' ∉ m.toList → n ≠ m →
      x.Spares r n m := by
  intro hspares
  have hkept := hspares databases ((Repository.memory .empty).persist "/metadata/d" "") "" "d"
    (by decide) (by decide) (by decide) "/metadata/d" (.refl _)
  exact absurd hkept (by decide)

end Shelf

end ClusterCatalog
