import ClusterCatalog.Json.Codec

/-!
# Settings of a node

Every section and every field has a default, so that any part of the settings may be left out.
-/

namespace ClusterCatalog

/-- Where the tree of configuration nodes is kept. -/
inductive Backend where
  /-- In the memory of the process, lost when it ends. -/
  | memory
  /-- In a file. -/
  | file
deriving DecidableEq, Inhabited

namespace Backend

/-- The name of a backend in settings and on the command line. -/
def name : Backend → String
  | memory => "memory"
  | file => "redb"

/-- The backend of a name. -/
def ofName? (s : String) : Option Backend :=
  [memory, file].find? fun b => b.name == s

instance : Codec Backend where
  encode b := .ofString b.name
  decode
    | _, .string s => s.bind ofName?
    | _ + 1, .object [(some s, .null)] => ofName? s
    | _, _ => none

end Backend

/-- Which repository is opened. -/
structure RepositorySettings where
  backend : Backend := .file
  /-- The file of the repository, without meaning for the memory backend. -/
  path : String := "/var/lib/shardmeta/meta.redb"
deriving DecidableEq, Inhabited

instance : Codec RepositorySettings where
  encode s := .ofMembers [("backend", Codec.encode s.backend), ("path", .ofString s.path)]
  decode levels doc := do
    let f ← Fields.ofDocument ["backend", "path"] levels doc
    let base : RepositorySettings := {}
    some
      { backend := ← f.withDefault "backend" Codec.decode base.backend
        path := ← f.withDefault "path" .text base.path }

/-- How long a rule change waits for the reloaded generation. -/
structure ClusterSettings where
  reloadTimeoutMs : Nat := 3000
deriving DecidableEq, Inhabited

instance : Codec ClusterSettings where
  encode s := .ofMembers [("reload_timeout_ms", .ofNat s.reloadTimeoutMs)]
  decode levels doc := do
    let f ← Fields.ofDocument ["reload_timeout_ms"] levels doc
    let base : ClusterSettings := {}
    some { reloadTimeoutMs := ← f.withDefault "reload_timeout_ms" .word base.reloadTimeoutMs }

/-- How retired pools are drained. -/
structure PoolSettings where
  /-- Time between two looks at the connections of a retired pool. -/
  drainPollIntervalMs : Nat := 10
  /-- Time after which a retired pool is closed whatever its connections. -/
  drainTimeoutMs : Nat := 30000
deriving DecidableEq, Inhabited

instance : Codec PoolSettings where
  encode s := .ofMembers [("drain_poll_interval_ms", .ofNat s.drainPollIntervalMs),
    ("drain_timeout_ms", .ofNat s.drainTimeoutMs)]
  decode levels doc := do
    let f ← Fields.ofDocument ["drain_poll_interval_ms", "drain_timeout_ms"] levels doc
    let base : PoolSettings := {}
    some
      { drainPollIntervalMs :=
          ← f.withDefault "drain_poll_interval_ms" .word base.drainPollIntervalMs
        drainTimeoutMs := ← f.withDefault "drain_timeout_ms" .word base.drainTimeoutMs }

/-- What is logged and how. -/
structure LogSettings where
  level : String := "info"
  json : Bool := false
deriving DecidableEq, Inhabited

instance : Codec LogSettings where
  encode s := .ofMembers [("level", .ofString s.level), ("json", .bool s.json)]
  decode levels doc := do
    let f ← Fields.ofDocument ["level", "json"] levels doc
    let base : LogSettings := {}
    some
      { level := ← f.withDefault "level" .text base.level
        json := ← f.withDefault "json" .flag base.json }

/-- **The settings of a node.** -/
structure Settings where
  repository : RepositorySettings := {}
  cluster : ClusterSettings := {}
  pool : PoolSettings := {}
  log : LogSettings := {}
deriving DecidableEq, Inhabited

instance : Codec Settings where
  encode s := .ofMembers [("repository", Codec.encode s.repository),
    ("cluster", Codec.encode s.cluster), ("pool", Codec.encode s.pool),
    ("log", Codec.encode s.log)]
  decode levels doc := do
    let f ← Fields.ofDocument ["repository", "cluster", "pool", "log"] levels doc
    some
      { repository := ← f.withDefault "repository" Codec.decode {}
        cluster := ← f.withDefault "cluster" Codec.decode {}
        pool := ← f.withDefault "pool" Codec.decode {}
        log := ← f.withDefault "log" Codec.decode {} }

end ClusterCatalog
