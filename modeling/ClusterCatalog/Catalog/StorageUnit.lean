import ClusterCatalog.Json.Codec

/-!
# Storage units

A storage unit is a named data source of a database. What is stored about it are the properties that
its connection pool is opened with.
-/

namespace ClusterCatalog

/-- The data source behind one or more storage units. -/
structure StorageNode where
  name : String
deriving DecidableEq, Inhabited

instance : Codec StorageNode where
  encode n := .ofString n.name
  decode levels doc := StorageNode.mk <$> Decoder.text levels doc

/-- **Properties of a connection pool**: where it connects to, as whom, and its settings by name. -/
structure PoolProperties where
  url : String
  username : String
  password : String := ""
  pool : SortedMap String := ∅
deriving DecidableEq, Inhabited

/-- The properties with one setting of the pool. -/
def PoolProperties.withSetting (p : PoolProperties) (key value : String) : PoolProperties :=
  { p with pool := p.pool.insert key value }

instance : Codec PoolProperties where
  encode p := .ofMembers [("url", .ofString p.url), ("username", .ofString p.username),
    ("password", .ofString p.password), ("pool", Codec.encodeMap p.pool)]
  decode levels doc := do
    let f ← Fields.ofDocument ["url", "username", "password", "pool"] levels doc
    some
      { url := ← f.required "url" .text
        username := ← f.required "username" .text
        password := ← f.withDefault "password" .text ""
        pool := ← f.withDefault "pool" Codec.decode ∅ }

/-- **A storage unit**: its name and the properties of its pool. -/
structure StorageUnit where
  name : String
  properties : PoolProperties
deriving DecidableEq, Inhabited

/-- The data source that a storage unit routes to bears the name of the unit. -/
def StorageUnit.node (u : StorageUnit) : StorageNode := ⟨u.name⟩

end ClusterCatalog
