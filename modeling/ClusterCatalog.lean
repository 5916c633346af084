import ClusterCatalog.Admin.Arguments
import ClusterCatalog.Admin.Tool
import ClusterCatalog.Catalog.Properties
import ClusterCatalog.Catalog.Rule
import ClusterCatalog.Catalog.Schema
import ClusterCatalog.Catalog.Settings
import ClusterCatalog.Catalog.Statistics
import ClusterCatalog.Catalog.StorageUnit
import ClusterCatalog.Cluster.Diff
import ClusterCatalog.Cluster.Drain
import ClusterCatalog.Cluster.Generation
import ClusterCatalog.Cluster.Request
import ClusterCatalog.Cluster.Resource
import ClusterCatalog.Cluster.RuleChange
import ClusterCatalog.Cluster.Service
import ClusterCatalog.Cluster.Switch
import ClusterCatalog.Cluster.UnitChange
import ClusterCatalog.Error
import ClusterCatalog.Json.Codec
import ClusterCatalog.Json.Document
import ClusterCatalog.Json.Reader
import ClusterCatalog.Json.Value
import ClusterCatalog.Main
import ClusterCatalog.Number.Binary64
import ClusterCatalog.Number.Numeral
import ClusterCatalog.Plan
import ClusterCatalog.Proofs.Admin.Activation
import ClusterCatalog.Proofs.Catalog.RuleItems
import ClusterCatalog.Proofs.Catalog.RuleText
import ClusterCatalog.Proofs.Catalog.StoredForm
import ClusterCatalog.Proofs.Cluster.Agreement
import ClusterCatalog.Proofs.Cluster.Awaiting
import ClusterCatalog.Proofs.Cluster.Confinement
import ClusterCatalog.Proofs.Cluster.Definitions
import ClusterCatalog.Proofs.Cluster.Effect
import ClusterCatalog.Proofs.Cluster.Exchange
import ClusterCatalog.Proofs.Cluster.Failures
import ClusterCatalog.Proofs.Cluster.Interleaving
import ClusterCatalog.Proofs.Cluster.Lockstep
import ClusterCatalog.Proofs.Cluster.Overtaking
import ClusterCatalog.Proofs.Cluster.Ownership
import ClusterCatalog.Proofs.Cluster.Reload
import ClusterCatalog.Proofs.Cluster.Renaming
import ClusterCatalog.Proofs.Cluster.Retry
import ClusterCatalog.Proofs.Cluster.Schemas
import ClusterCatalog.Proofs.Cluster.ShortHistories
import ClusterCatalog.Proofs.Cluster.SingleRule
import ClusterCatalog.Proofs.Cluster.Tidy
import ClusterCatalog.Proofs.Json.Codec
import ClusterCatalog.Proofs.Json.Nesting
import ClusterCatalog.Proofs.Json.Recovery
import ClusterCatalog.Proofs.Json.RoundTrip
import ClusterCatalog.Proofs.Lockstep
import ClusterCatalog.Proofs.OwnNames
import ClusterCatalog.Proofs.Plan
import ClusterCatalog.Proofs.Simulation.Draining
import ClusterCatalog.Proofs.Simulation.Stage
import ClusterCatalog.Proofs.SortedMap
import ClusterCatalog.Proofs.Store.Access
import ClusterCatalog.Proofs.Store.Answers
import ClusterCatalog.Proofs.Store.Batch
import ClusterCatalog.Proofs.Store.Calls
import ClusterCatalog.Proofs.Store.Catalogue
import ClusterCatalog.Proofs.Store.Commit
import ClusterCatalog.Proofs.Store.Definitions
import ClusterCatalog.Proofs.Store.Difference
import ClusterCatalog.Proofs.Store.Frame
import ClusterCatalog.Proofs.Store.GlobalSettings
import ClusterCatalog.Proofs.Store.Histories
import ClusterCatalog.Proofs.Store.Idempotence
import ClusterCatalog.Proofs.Store.InOrder
import ClusterCatalog.Proofs.Store.Interruption
import ClusterCatalog.Proofs.Store.Item
import ClusterCatalog.Proofs.Store.Layout
import ClusterCatalog.Proofs.Store.Loading
import ClusterCatalog.Proofs.Store.Nodes
import ClusterCatalog.Proofs.Store.Numbering
import ClusterCatalog.Proofs.Store.Orderly
import ClusterCatalog.Proofs.Store.Pointer
import ClusterCatalog.Proofs.Store.Refinement
import ClusterCatalog.Proofs.Store.Reload
import ClusterCatalog.Proofs.Store.RuleOperations
import ClusterCatalog.Proofs.Store.RuleTable
import ClusterCatalog.Proofs.Store.Schemas
import ClusterCatalog.Proofs.Store.Siblings
import ClusterCatalog.Proofs.Store.Texts
import ClusterCatalog.Proofs.Store.Tidy
import ClusterCatalog.Proofs.Store.UnitVisibility
import ClusterCatalog.Proofs.Store.Units
import ClusterCatalog.Proofs.Store.Visibility
import ClusterCatalog.Proofs.Store.Writers
import ClusterCatalog.Proofs.Tree.History
import ClusterCatalog.Proofs.Tree.Lookup
import ClusterCatalog.Proofs.Tree.Names
import ClusterCatalog.Proofs.Tree.Reachability
import ClusterCatalog.Proofs.Tree.Separation
import ClusterCatalog.SettingsFile.Conversion
import ClusterCatalog.SettingsFile.Layer
import ClusterCatalog.SettingsFile.Load
import ClusterCatalog.SettingsFile.Number
import ClusterCatalog.SettingsFile.Reader
import ClusterCatalog.SettingsFile.Section
import ClusterCatalog.SettingsFile.Setting
import ClusterCatalog.SettingsFile.Text
import ClusterCatalog.Simulation.Fault
import ClusterCatalog.Simulation.Session
import ClusterCatalog.Simulation.Stage
import ClusterCatalog.Simulation.Task
import ClusterCatalog.SortedMap
import ClusterCatalog.Store.Access
import ClusterCatalog.Store.Coordinator
import ClusterCatalog.Store.Item
import ClusterCatalog.Store.Properties
import ClusterCatalog.Store.Reload
import ClusterCatalog.Store.Rules
import ClusterCatalog.Store.Schemas
import ClusterCatalog.Store.Statistics
import ClusterCatalog.Store.Units
import ClusterCatalog.Tree.Basic
import ClusterCatalog.Tree.Path
import ClusterCatalog.Tree.Repository
import ClusterCatalog.Tree.Table
import ClusterCatalog.Warning
