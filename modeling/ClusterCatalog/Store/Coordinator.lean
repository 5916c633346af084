import ClusterCatalog.Store.Access

/-!
# Notifications about databases

When a database appears or disappears, the other members of the cluster are told through a node
that they watch.
-/

namespace ClusterCatalog

/-- **What happened to a database.** -/
inductive DatabaseEvent where
  | create
  | drop
deriving DecidableEq, Inhabited

namespace DatabaseEvent

/-- The text of an event. -/
def name : DatabaseEvent → String
  | create => "CREATE"
  | drop => "DROP"

/-- The event of a text. -/
def parse (text : String) : Except Error DatabaseEvent :=
  ([create, drop].find? fun e => e.name == text).elim (.error (.unknownEvent text)) .ok

end DatabaseEvent

namespace Coordinator

/-- Publishes an event of a database. -/
def publish (db : String) (event : DatabaseEvent) : Access Unit :=
  Access.persist (Path.coordinator db) event.name

/-- The pending event of a database. -/
def pending (db : String) : Access (Option DatabaseEvent) := do
  match ← Access.query (Path.coordinator db) with
  | some text => return some (← Plan.ofExcept (DatabaseEvent.parse text))
  | none => return none

/-- Removes a handled event. -/
def clear (db : String) : Access Unit := Access.delete (Path.coordinator db)

end Coordinator

end ClusterCatalog
