import ClusterCatalog.Catalog.Rule
import ClusterCatalog.Store.Item

/-!
# Stored rules

The items of a database rule are versioned one by one, so that a change of one item writes nothing
else; their switches are left to commit. A global rule is one versioned item that is committed as
soon as it is written.
-/

namespace ClusterCatalog

namespace Stored

/-! ### Rules of a database -/

/-- Writes a new revision of every item of the rules and gives the switches to commit. -/
def persistRules (db : String) (rules : List Rule) : Access (List PendingSwitch) := do
  let switches ← rules.mapM fun rule =>
    rule.items.mapM fun item => Item.stage (Path.databaseRuleItem db rule.name item.1) item.2
  return switches.flatten

/-- Removes a whole rule. -/
def deleteRule (db rule : String) : Access Unit := Access.delete (Path.databaseRule db rule)

/-- Removes the items that the given rules have, and nothing else of the stored rules. -/
def deleteRuleItems (db : String) (rules : List Rule) : Access Unit :=
  rules.forM fun rule =>
    rule.items.forM fun item => Access.delete (Path.databaseRuleItem db rule.name item.1)

/-- The active texts of the items of a stored rule. -/
def loadRuleItems (db rule : String) : Access (SortedMap String) := do
  let names ← Access.children (Path.databaseRule db rule)
  let found ← names.mapM fun name => do
    match ← Item.activeValue (Path.databaseRuleItem db rule name) with
    | some text => return [(name, text)]
    | none => return []
  return SortedMap.ofList found.flatten

/-- **The rules of a database**, in the order of their nodes. -/
def loadRules (db : String) : Access (List Rule) := do
  let names ← Access.children (Path.databaseRules db)
  names.mapM fun name => do
    Plan.ofExcept (Rule.ofItems name (← loadRuleItems db name))

/-! ### Global rules -/

/-- Writes and commits global rules, in order. -/
def persistGlobalRules (rules : List Rule) : Access Unit :=
  rules.forM fun rule => do
    let _ ← Item.publish (Path.globalRule rule.name) (Codec.write rule)

/-- The global rules, in the order of their nodes. -/
def loadGlobalRules : Access (List Rule) := do
  let names ← Access.children Path.globalRulesRoot
  let found ← names.mapM fun name => do
    match ← Item.activeValue (Path.globalRule name) with
    | some text => return [← Access.parse text]
    | none => return []
  return found.flatten

end Stored

end ClusterCatalog
