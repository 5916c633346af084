/-!
# Paths of the configuration tree

Every node of the tree is addressed by an absolute path of segments separated by `/`. The layout is

```text
/metadata/{database}/schemas/{schema}/tables/{table}
/metadata/{database}/schemas/{schema}/views/{view}
/metadata/{database}/data_sources/units/{unit}
/metadata/{database}/rules/{rule}/{item}
/rules/{rule}
/props
/statistics/databases/{database}/schemas/{schema}/tables/{table}
/states/listener_coordinator/{database}
```

A versioned item at a path keeps its revisions below `versions` and the number of the active one in
`active_version`. Names are put into a path as they are; a name that contains `/` therefore reaches
below another node.
-/

namespace ClusterCatalog

/-- The text of an absolute path. -/
abbrev Path := String

namespace Path

/-- The path of a child. -/
def child (path : Path) (name : String) : Path := path ++ "/" ++ name

/-! ### Fixed places -/

def metadataRoot : Path := "/metadata"
def globalRulesRoot : Path := "/rules"
def properties : Path := "/props"
def statisticsRoot : Path := "/statistics/databases"
def coordinatorRoot : Path := "/states/listener_coordinator"

/-- The node of a versioned item that names its active revision. -/
def activeVersionNode : String := "active_version"

/-- The node of a versioned item that holds its revisions. -/
def versionsNode : String := "versions"

/-! ### Below a versioned item -/

def activeVersion (path : Path) : Path := child path activeVersionNode

def versions (path : Path) : Path := child path versionsNode

def version (path : Path) (number : Nat) : Path := child (versions path) (toString number)

/-! ### Databases, schemas, tables and views -/

def database (db : String) : Path := child metadataRoot db

def schemas (db : String) : Path := child (database db) "schemas"

def schema (db schema : String) : Path := child (schemas db) schema

def tables (db schema : String) : Path := child (Path.schema db schema) "tables"

def table (db schema table : String) : Path := child (tables db schema) table

def views (db schema : String) : Path := child (Path.schema db schema) "views"

def view (db schema view : String) : Path := child (views db schema) view

/-! ### Storage units and rules -/

def storageUnits (db : String) : Path := child (child (database db) "data_sources") "units"

def storageUnit (db unit : String) : Path := child (storageUnits db) unit

def databaseRules (db : String) : Path := child (database db) "rules"

def databaseRule (db rule : String) : Path := child (databaseRules db) rule

def databaseRuleItem (db rule item : String) : Path := child (databaseRule db rule) item

def globalRule (rule : String) : Path := child globalRulesRoot rule

/-! ### Statistics and states -/

def statisticsSchema (db schema : String) : Path :=
  child (child (child statisticsRoot db) "schemas") schema

def statisticsTable (db schema table : String) : Path :=
  child (child (statisticsSchema db schema) "tables") table

def coordinator (db : String) : Path := child coordinatorRoot db

/-! ### Relations between paths -/

/-- What the paths of all nodes below a path start with. -/
def below (path : Path) : String :=
  if path.toList.getLast? = some '/' then path else path ++ "/"

/-- Whether a text starts with another one. -/
def startsWith (text front : String) : Bool := front.toList.isPrefixOf text.toList

/-- The parts of a list of characters that end before a `/`, the shortest first, where `seen` is
what stands before the list. An empty part is none. -/
def partsBeforeSlash (seen : List Char) : List Char → List (List Char)
  | [] => []
  | c :: cs =>
    let later := partsBeforeSlash (seen ++ [c]) cs
    if c = '/' ∧ seen ≠ [] then seen :: later else later

/-- The nodes above a path, the outermost first, without the root. -/
def ancestors (path : Path) : List Path := (partsBeforeSlash [] path.toList).map String.ofList

/-- The name of a path as a direct child, given what the paths below its parent start with. -/
def childName? (front : String) (path : Path) : Option String :=
  if startsWith path front then
    let name := path.toList.drop front.toList.length
    if name ≠ [] ∧ '/' ∉ name then some (String.ofList name) else none
  else none

end Path

end ClusterCatalog
