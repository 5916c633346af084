import ClusterCatalog.Cluster.Service
import ClusterCatalog.Store.Properties
import ClusterCatalog.Store.Reload
import ClusterCatalog.Store.Rules

/-!
# Administration of a node: rules and properties

The node does not work out by itself what a changed rule means for the schemas of a database: the
rule is written, the node loads it and installs a new generation, and the operation that changed the
rule waits for that generation before it writes how the schemas have changed. If the generation does
not come in time, the rule stays written and the call may be repeated.

The rule of undistributed tables, the global rules and the properties need no such wait.
-/

namespace ClusterCatalog

namespace Service

/-- **Waits for the generation that has the stored rules** of a database and is newer than the one
before the change. -/
def awaitReload (service : Service) (db : String) (before : Generation) :
    Cluster Generation := do
  let committed := RuleSet.ofList (← Cluster.access (Stored.loadRules db))
  match ← Cluster.awaitGeneration (.reloaded db committed before.number)
      service.reloadTimeoutMs with
  | some reload => return reload
  | none => .fail (.reloadTimeout db service.reloadTimeoutMs)

/-- Writes what follows from an altered rule. -/
def afterRuleAltered (service : Service) (db : String) (before : Generation) :
    Cluster Unit := do
  let reload ← service.awaitReload db before
  Cluster.access (Stored.persistReloadAltered db (reload.schemas db) (before.schemas db))

/-- Writes what follows from a removed rule or item of a rule. -/
def afterRuleDropped (service : Service) (db : String) (before : Generation) :
    Cluster Unit := do
  let reload ← service.awaitReload db before
  Cluster.access (Stored.persistReloadDropped db (reload.schemas db) (before.schemas db))

/-- Stores the rule of undistributed tables that is among the given rules. -/
def alterSingleRule (db : String) (rules : RuleSet) : Cluster Unit :=
  match rules.single? with
  | none => .fail (.ruleNotFound db SingleRule.ruleName)
  | some rule =>
    Cluster.access do Item.commit (← Stored.persistRules db [.single rule])

/-- **Stores a rule of a database** and what follows from it. -/
def alterRule (service : Service) (db : String) (rule : Option Rule) : Cluster Unit := do
  if let some rule := rule then
    let before ← Cluster.current
    Cluster.access do Item.commit (← Stored.persistRules db [rule])
    service.afterRuleAltered db before

/-- **Removes items of a rule**: those that the given rule has. -/
def removeRuleItems (service : Service) (db : String) (rule : Option Rule) : Cluster Unit := do
  if let some rule := rule then
    let before ← Cluster.current
    Cluster.access (Stored.deleteRuleItems db [rule])
    service.afterRuleDropped db before

/-- **Removes a rule of a database.** -/
def removeRule (service : Service) (db rule : String) : Cluster Unit := do
  let before ← Cluster.current
  Cluster.access (Stored.deleteRule db rule)
  service.afterRuleDropped db before

/-- Stores a global rule. -/
def alterGlobalRule (rule : Rule) : Cluster Unit :=
  Cluster.access (Stored.persistGlobalRules [rule])

/-- Stores the properties. -/
def alterProperties (properties : Properties) : Cluster Unit :=
  Cluster.access (Stored.persistProperties properties)

end Service

end ClusterCatalog
