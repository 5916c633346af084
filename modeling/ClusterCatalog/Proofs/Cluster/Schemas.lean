import ClusterCatalog.Cluster.Service
import ClusterCatalog.Proofs.Simulation.Stage
import ClusterCatalog.Proofs.Store.Catalogue

/-!
# Operations on schemas refine a nested map

The administrative operations on databases, schemas and tables (`SchemaOperation`) are changes of a
catalogue, a map of databases to schemas to tables and views (`SchemaOperation.update`). Carried out
one after the other from an empty repository, each ends well, and after each one the names of the
schemas and the schemas that are loaded are those of the catalogue
(`SchemaOperation.loads_catalogue`). The only condition besides proper names is that no item is
written to more often than there are numbers for its revisions.

One step is `SchemaOperation.performs_access`: an operation performs its change, whatever the
catalogue is that the repository stands for.
-/

namespace ClusterCatalog

open Plan Repository

/-- Operations on the repository after each other are one operation on the repository. -/
theorem Cluster.access_bind {α β : Type} (p : Access α) (f : α → Access β) :
    Cluster.access (p >>= f) = Cluster.access p >>= fun a => Cluster.access (f a) := by
  rw [bind_eq, bind_eq]
  unfold Cluster.access
  induction p with
  | done a => rfl
  | stop e => rfl
  | ask r k ih => exact congrArg (ask _) (funext fun reply => ih _)

/-- **An operation on databases, schemas and tables.** -/
inductive SchemaOperation where
  | createDatabase (db : String)
  | dropDatabase (db : String)
  | createSchema (db schema : String)
  | dropSchemas (db : String) (schemas : List String)
  | createTable (db schema : String) (table : Table)
  | dropTable (db schema table : String)
  | alterSchema (db schema : String) (tables : List Table) (views : List View)
      (droppedTables droppedViews : List String)

namespace SchemaOperation

/-- The operation as it is carried out on a node. -/
def run (service : Service) : SchemaOperation → Cluster Unit
  | createDatabase db => service.createDatabase db
  | dropDatabase db => service.dropDatabase db
  | createSchema db schema => Service.createSchema db schema
  | dropSchemas db schemas => Service.dropSchemas db schemas
  | createTable db schema table => Service.createTable db schema table
  | dropTable db schema table => Service.dropTable db schema table
  | alterSchema db schema tables views droppedTables droppedViews =>
    Service.alterSchema db schema tables views droppedTables droppedViews

/-- **What an operation does to a catalogue.** -/
def update : SchemaOperation → Catalogue → Catalogue
  | createDatabase db, c => c.addDatabase db
  | dropDatabase db, c => SortedMap.erase c db
  | createSchema db schema, c => c.put db schema id
  | dropSchemas db schemas, c => schemas.foldl (fun c schema => c.dropSchema db schema) c
  | createTable db schema table, c => c.put db schema fun x => x.putTable table
  | dropTable db schema table, c => c.change db schema fun x => x.eraseTable table
  | alterSchema db schema tables views droppedTables droppedViews, c =>
    let c := tables.foldl (fun c t => c.put db schema fun x => x.putTable t) c
    let c := views.foldl (fun c v => c.put db schema fun x => x.putView v) c
    let c := droppedTables.foldl (fun c t => c.change db schema fun x => x.eraseTable t) c
    droppedViews.foldl (fun c v => c.change db schema fun x => x.eraseView v) c

/-- The items that an operation writes to, each as often as it is written to. -/
def written : SchemaOperation → List Path
  | createTable db schema table => [Path.table db schema table.name]
  | alterSchema db schema tables views _ _ =>
    tables.map (fun t => Path.table db schema t.name) ++ views.map fun v => Path.view db schema v.name
  | _ => []

/-- The names in an operation. -/
def names : SchemaOperation → List String
  | createDatabase db => [db]
  | dropDatabase db => [db]
  | createSchema db schema => [db, schema]
  | dropSchemas db schemas => db :: schemas
  | createTable db schema table => [db, schema, table.name]
  | dropTable db schema table => [db, schema, table]
  | alterSchema db schema tables views droppedTables droppedViews =>
    db :: schema :: (tables.map (·.name) ++ views.map (·.name) ++ droppedTables ++ droppedViews)

/-- The calls of an operation, where the other members are told through the repository. -/
def access : SchemaOperation → Access Unit
  | createDatabase db => Stored.addDatabase db >>= fun _ => Coordinator.publish db .create
  | dropDatabase db => Coordinator.publish db .drop >>= fun _ => Stored.dropDatabase db
  | createSchema db schema => Stored.addSchema db schema
  | dropSchemas db schemas => schemas.forM (Stored.dropSchema db)
  | createTable db schema table => Stored.persistTables db schema [table]
  | dropTable db schema table => Stored.dropTable db schema table
  | alterSchema db schema tables views droppedTables droppedViews =>
    Stored.persistTables db schema tables >>= fun _ =>
      Stored.persistViews db schema views >>= fun _ =>
        droppedTables.forM (Stored.dropTable db schema) >>= fun _ =>
          droppedViews.forM (Stored.dropView db schema)

/-- **An operation on schemas is an operation on the repository**, if other members are told through the
repository: it asks the node for nothing else. -/
theorem run_eq_access (settings : Settings) (op : SchemaOperation) :
    op.run (.ofSettings settings) = Cluster.access op.access := by
  -- only those that announce something consist of two parts
  cases op with
  | createDatabase db => exact (Cluster.access_bind _ _).symm
  | dropDatabase db => exact (Cluster.access_bind _ _).symm
  | _ => rfl

/-- **An operation performs its change.** -/
theorem performs_access {op : SchemaOperation} (h : ∀ name ∈ op.names, Path.IsName name) :
    Catalogue.Performs op.access op.written op.update := by
  -- one case for each operation: it is put together from the changes of which the catalogue knows what
  -- they do
  cases op with
  | createDatabase db =>
    have hdb := h db (by simp [names])
    exact (Catalogue.performs_addDatabase hdb).seq (Catalogue.performs_notify db .create)
  | dropDatabase db =>
    have hdb := h db (by simp [names])
    exact (Catalogue.performs_notify db .drop).seq (Catalogue.performs_dropDatabase hdb)
  | createSchema db schema =>
    exact Catalogue.performs_addSchema (h db (by simp [names])) (h schema (by simp [names]))
  | dropSchemas db schemas =>
    have hdb := h db (by simp [names])
    exact Catalogue.Performs.forM_nil fun schema hschema =>
      Catalogue.performs_dropSchema hdb (h schema (by simp [names, hschema]))
  | createTable db schema table =>
    refine Catalogue.performs_persistTables (h db (by simp [names])) (h schema (by simp [names])) ?_
    simpa using h table.name (by simp [names])
  | dropTable db schema table =>
    exact Catalogue.performs_dropTable (h db (by simp [names])) (h schema (by simp [names]))
      (h table (by simp [names]))
  | alterSchema db schema tables views droppedTables droppedViews =>
    have hdb := h db (by simp [names])
    have hschema := h schema (by simp [names])
    have htables : ∀ t ∈ tables, Path.IsName t.name := fun t ht => h _ (by grind [names])
    have hviews : ∀ v ∈ views, Path.IsName v.name := fun v hv => h _ (by grind [names])
    have hdroppedTables : ∀ t ∈ droppedTables, Path.IsName t := fun t ht => h t (by grind [names])
    have hdroppedViews : ∀ v ∈ droppedViews, Path.IsName v := fun v hv => h v (by grind [names])
    -- first everything is written, tables before views, and then everything is dropped
    have hall := (Catalogue.performs_persistTables hdb hschema htables).seq
      ((Catalogue.performs_persistViews hdb hschema hviews).seq
        ((Catalogue.Performs.forM_nil fun t ht =>
            Catalogue.performs_dropTable hdb hschema (hdroppedTables t ht)).seq
          (Catalogue.Performs.forM_nil fun v hv =>
            Catalogue.performs_dropView hdb hschema (hdroppedViews v hv))))
    rwa [List.append_nil, List.append_nil] at hall

/-! ### Runs -/

/-- Carries out one operation after the other on a node, as long as each ends well. -/
def runAll (settings : Settings) (ops : List SchemaOperation) (s : Stage) : Except Failure Stage :=
  ops.foldlM (fun s op =>
    match (op.run (.ofSettings settings)).run Stage.answer s with
    | (.ok (), s') => .ok s'
    | (.error f, _) => .error f) s

/-- What operations make of the empty catalogue. -/
def catalogue (ops : List SchemaOperation) : Catalogue := ops.foldl (fun c op => op.update c) ∅

/-- **One step**: an operation ends well, and the repository stands for the changed catalogue. -/
theorem runAll_cons {settings : Settings} {op : SchemaOperation} {s : Stage} {paths : List Path}
    {c : Catalogue} (hfaults : s.faults = []) (hnames : ∀ name ∈ op.names, Path.IsName name)
    (hcount : ∀ path, (paths ++ op.written).count path ≤ maxRevision)
    (hstored : Catalogue.StoredIn s.repository paths c) (hc : c.Named) :
    ∃ s', (∀ ops, runAll settings (op :: ops) s = runAll settings ops s') ∧ s'.faults = []
      ∧ Catalogue.StoredIn s'.repository (paths ++ op.written) (op.update c)
      ∧ (op.update c).Named := by
  obtain ⟨hresult, hrepository, hfaults'⟩ := Stage.run_access_of_faults_eq_nil op.access hfaults
  obtain ⟨hok, hstored', hc'⟩ :=
    Access.keeps_run_iff.1 (performs_access hnames _ _ _ hstored hc hcount)
  -- without faults the repository of the node is what the operation makes of the repository alone
  rw [← hrepository] at hstored'
  refine ⟨((Cluster.access op.access).run Stage.answer s).2, fun ops => ?_, hfaults', hstored', hc'⟩
  rw [runAll, List.foldlM_cons, run_eq_access]
  rw [hok] at hresult
  -- that the operation ends well is all that the other ones need to know of it
  generalize (Cluster.access op.access).run Stage.answer s = ran at hresult
  obtain ⟨result, s'⟩ := ran
  cases hresult
  rfl

/-- **A run** ends well, and the repository stands for the catalogue. -/
theorem exists_runAll {settings : Settings} {ops : List SchemaOperation} {s : Stage}
    {paths : List Path} {c : Catalogue} (hfaults : s.faults = [])
    (hnames : ∀ op ∈ ops, ∀ name ∈ op.names, Path.IsName name)
    (hcount : ∀ path, (paths ++ ops.flatMap written).count path ≤ maxRevision)
    (hstored : Catalogue.StoredIn s.repository paths c) (hc : c.Named) :
    ∃ s', runAll settings ops s = .ok s'
      ∧ Catalogue.StoredIn s'.repository (paths ++ ops.flatMap written)
        (ops.foldl (fun c op => op.update c) c)
      ∧ (ops.foldl (fun c op => op.update c) c).Named := by
  -- by induction on the operations, for whatever was written before them
  induction ops generalizing s paths c with
  | nil => exact ⟨s, rfl, by rw [List.flatMap_nil, List.append_nil]; exact hstored, hc⟩
  | cons op ops ih =>
    rw [List.flatMap_cons, ← List.append_assoc] at hcount ⊢
    -- there is room for all writes, so there is for those of the first operation
    have hcount₁ : ∀ path, (paths ++ op.written).count path ≤ maxRevision := fun path =>
      Nat.le_trans ((List.sublist_append_left _ _).count_le path) (hcount path)
    obtain ⟨s₁, hrun, hfaults₁, hstored₁, hc₁⟩ :=
      runAll_cons hfaults (hnames op List.mem_cons_self) hcount₁ hstored hc
    rw [hrun]
    exact ih hfaults₁ (fun op' hop' => hnames op' (List.mem_cons_of_mem _ hop')) hcount hstored₁ hc₁

/-- **Operations on schemas refine a nested map.** From an empty repository each operation ends well,
and after each of them what is loaded is what the operations so far have made of the empty
catalogue, provided that all names are names and no item is written to 2^32 times. -/
theorem loads_catalogue (settings : Settings) (ops : List SchemaOperation) (s : Stage)
    (hempty : s.repository.nodes = ∅) (hfaults : s.faults = [])
    (hnames : ∀ op ∈ ops, ∀ name ∈ op.names, Path.IsName name)
    (hcount : ∀ path, (ops.flatMap written).count path < 2 ^ 32) :
    ∀ done, done <+: ops → ∃ s', runAll settings done s = .ok s'
      ∧ ∀ db, Path.IsName db →
        (Stored.schemaNames db).run Repository.answer s'.repository
            = (.ok ((catalogue done).schemaNames db), s'.repository)
          ∧ ∀ schema, Path.IsName schema →
            (Stored.loadSchema db schema).run Repository.answer s'.repository
              = (.ok ((catalogue done).schema db schema), s'.repository) := by
  intro done hdone
  -- what has been done is a part of all operations, so its writes fit as well
  have hcountDone := Access.count_le_of_prefix hdone hcount
  obtain ⟨s', hrun, hstored, hc⟩ := exists_runAll hfaults (fun op hop => hnames op (hdone.mem hop))
    hcountDone (Catalogue.storedIn_empty hempty) Catalogue.named_empty
  -- at this point the repository stands for the catalogue, and all that can be loaded is read off it
  refine ⟨s', hrun, fun db hdb => ⟨(hstored.reads_schemaNames hc hdb).run, fun schema hschema => ?_⟩⟩
  exact (hstored.reads_loadSchema hc hdb hschema).run

/-- A schema is dropped and comes back with another definition of its table, beside a schema whose name
starts with its own. -/
def recreation : List SchemaOperation :=
  [.createDatabase "d", .createTable "d" "s" { name := "t", columns := [⟨"a", "INT", true, false⟩] },
    .createTable "d" "s1" { name := "t" }, .dropSchemas "d" ["s"],
    .alterSchema "d" "s" [{ name := "t" }, { name := "u" }, { name := "v" }] [⟨"t", "SELECT 1"⟩] ["v"] [],
    .dropTable "d" "s1" "t"]

/-- The schema that came back has the definitions that it got since, and nothing of before. -/
theorem loads_catalogue_recreation :
    ∃ s', runAll {} recreation { repository := .memory ⟨∅⟩ } = .ok s'
      ∧ (Stored.schemaNames "d").run Repository.answer s'.repository = (.ok ["s", "s1"], s'.repository)
      ∧ (Stored.loadSchema "d" "s").run Repository.answer s'.repository
        = (.ok { name := "s", tables := .ofList [("t", { name := "t" }), ("u", { name := "u" })],
                 views := .ofList [("t", ⟨"t", "SELECT 1"⟩)] }, s'.repository)
      ∧ (Stored.loadSchema "d" "s1").run Repository.answer s'.repository
        = (.ok { name := "s1" }, s'.repository) := by
  obtain ⟨s', hrun, hloads⟩ := loads_catalogue {} recreation { repository := .memory ⟨∅⟩ } rfl rfl
    (by decide) (fun path => Nat.lt_of_le_of_lt List.count_le_length (by decide)) recreation
    List.prefix_rfl
  obtain ⟨hnames, hschema⟩ := hloads "d" (by decide)
  exact ⟨s', hrun, hnames, hschema "s" (by decide), hschema "s1" (by decide)⟩

end SchemaOperation

end ClusterCatalog
