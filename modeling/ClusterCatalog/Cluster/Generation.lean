import ClusterCatalog.Catalog.Properties
import ClusterCatalog.Catalog.Rule
import ClusterCatalog.Catalog.Schema
import ClusterCatalog.Catalog.Statistics
import ClusterCatalog.Cluster.Resource
import ClusterCatalog.Error

/-!
# Generations

A `Generation` is everything that a node of the cluster knows at one time: its databases with their
resources, rules and schemas, the global rules, the properties and the statistics. A generation is
never changed. A change builds another one with a greater number, and whoever has taken a generation
keeps seeing what it was.
-/

namespace ClusterCatalog

/-! ### Sets of rules -/

/-- **Rules by name.** -/
structure RuleSet where
  byName : SortedMap Rule := ∅
deriving Inhabited

namespace RuleSet

/-- The set of a list of rules; of equal names the last one stays. -/
def ofList (rules : List Rule) : RuleSet := ⟨SortedMap.ofList (rules.map fun r => (r.name, r))⟩

/-- The rules in the order of their names. -/
def rules (s : RuleSet) : List Rule := s.byName.values

/-- The rule of a name. -/
def get? (s : RuleSet) (name : String) : Option Rule := s.byName.get? name

/-- The rule for tables that are not distributed. A rule of another kind under its name is none. -/
def single? (s : RuleSet) : Option SingleRule :=
  match s.get? SingleRule.ruleName with
  | some (.single rule) => some rule
  | _ => none

instance : BEq RuleSet := ⟨fun a b => a.byName.entries == b.byName.entries⟩

end RuleSet

/-! ### Databases -/

/-- **A database** of one generation. -/
structure Database where
  name : String
  resource : Resource := {}
  rules : RuleSet := {}
  schemas : Schemas := ∅
deriving Inhabited

namespace Database

/-- A database without storage units, rules and schemas. -/
def empty (name : String) : Database := { name }

/-- The schemas of a list, each under its own name; of equal names the last one stays. -/
def schemasOf (schemas : List Schema) : Schemas :=
  SortedMap.ofList (schemas.map fun s => (s.name, s))

end Database

/-! ### Generations -/

/-- **What a node knows at one time.** -/
structure Generation where
  /-- Numbers grow from one generation to the next. -/
  number : Nat := 0
  databases : SortedMap Database := ∅
  globalRules : RuleSet := {}
  properties : Properties := ∅
  /-- Collected statistics, by database. -/
  statistics : SortedMap DatabaseStatistics := ∅
deriving Inhabited

namespace Generation

/-- The greatest number of a generation. -/
def maxNumber : Nat := 18446744073709551615

/-- The databases of a list, each under its own name; of equal names the last one stays. -/
def databasesOf (databases : List Database) : SortedMap Database :=
  SortedMap.ofList (databases.map fun d => (d.name, d))

/-- The database of a name, or the error that there is none. -/
def database (g : Generation) (name : String) : Except Error Database :=
  (g.databases.get? name).elim (.error (.databaseNotFound name)) .ok

/-- The schemas of a database, none if the database is unknown. -/
def schemas (g : Generation) (name : String) : Schemas :=
  ((g.databases.get? name).map Database.schemas).getD ∅

/-- The generation with a database added or replaced under its own name. -/
def withDatabase (g : Generation) (d : Database) : Generation :=
  { g with databases := g.databases.insert d.name d }

/-- **The generation under the next number**, with everything else the same. -/
def successor (g : Generation) : Except Failure Generation :=
  if g.number < maxNumber then .ok { g with number := g.number + 1 } else .error .overflow

/-- The next generation, in which one database is added or replaced. -/
def succeededBy (g : Generation) (d : Database) : Except Failure Generation :=
  (g.withDatabase d).successor

end Generation

end ClusterCatalog
