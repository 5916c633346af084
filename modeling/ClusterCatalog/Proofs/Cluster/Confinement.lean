import ClusterCatalog.Proofs.Cluster.Lockstep
import ClusterCatalog.Proofs.Cluster.Tidy

/-!
# Operations stay inside their database

A database has three homes in the repository: its metadata, its statistics, and the node by which the
other members of the cluster are told about it. An administrative operation that names a database writes
and removes nothing else, at whatever call it fails. Above the homes, missing nodes may come to be; they
have no text. In the current generation an operation changes no other database either.

The names of other databases may continue the name of the database, or be continued by it. What separates
them is that a removal takes what continues a path *after a slash* (`Repository.query_delete_child`), so
the homes of different databases are apart (`Path.IsHomeOf.apart`).

* `StoreRequest.StaysIn` — the calls that an operation may make. One of them leaves every other node
  alone (`Repository.leftAlone_answer`).
* `Cluster.StaysIn` — an operation asks for nothing else, and puts nothing but its database into a
  generation, if every generation that it sees has each database under its own name.
* `NodeOperation.stays_in_database` — the result, for every run of an operation during which any
  generations are installed and any calls are refused.
-/

namespace ClusterCatalog

open Plan Repository

/-! ### Homes of databases -/

namespace Path

/-- **The homes of a database**: its metadata, its statistics, and the node by which the other members
are told about it. -/
def IsHomeOf (db : String) (home : Path) : Prop :=
  home = database db ∨ home = child statisticsRoot db ∨ home = coordinator db

/-- **A node belongs to a database** if it is in its metadata or its statistics, or if it is the node by
which the other members are told. What is below that node is nobody's. -/
def BelongsTo (db : String) (p : Path) : Prop :=
  (database db).Covers p ∨ (child statisticsRoot db).Covers p ∨ p = coordinator db

instance (db : String) (p : Path) : Decidable (p.BelongsTo db) :=
  inferInstanceAs (Decidable (_ ∨ _ ∨ _))

variable {db other : String} {p q : Path}

/-- What belongs to a database is in one of its homes. -/
theorem BelongsTo.exists_home (h : p.BelongsTo db) : ∃ home : Path, home.IsHomeOf db ∧ home.Covers p := by
  rcases h with h | h | rfl
  · exact ⟨_, .inl rfl, h⟩
  · exact ⟨_, .inr (.inl rfl), h⟩
  · exact ⟨_, .inr (.inr rfl), .refl _⟩

/-- A node that covers one of a database belongs to it, or it is above a home. -/
theorem BelongsTo.of_covers (h : p.BelongsTo db) (hq : q.Covers p) :
    q.BelongsTo db ∨ ∃ home : Path, home.IsHomeOf db ∧ q.IsAbove home := by
  -- both the home and the node cover what belongs to the database
  rcases h with h | h | rfl
  · rcases Covers.total h hq with hcovers | rfl | habove
    · exact .inl (.inl hcovers)
    · exact .inl (.inl (.refl _))
    · exact .inr ⟨_, .inl rfl, habove⟩
  · rcases Covers.total h hq with hcovers | rfl | habove
    · exact .inl (.inr (.inl hcovers))
    · exact .inl (.inr (.inl (.refl _)))
    · exact .inr ⟨_, .inr (.inl rfl), habove⟩
  · rcases hq with rfl | habove
    · exact .inl (.inr (.inr rfl))
    · exact .inr ⟨_, .inr (.inr rfl), habove⟩

/-- **Databases with different names** have homes that are apart, also if one name continues the
other. -/
theorem IsHomeOf.apart (hdb : IsName db) (hother : IsName other) (hne : db ≠ other)
    (hp : p.IsHomeOf db) (hq : q.IsHomeOf other) : p.Apart q := by
  have hmetadata : ∀ name, metadataRoot.Covers (database name) := fun name =>
    (isAbove_child metadataRoot name).covers
  have hstatistics : ∀ name, statisticsRoot.Covers (child statisticsRoot name) := fun name =>
    (isAbove_child statisticsRoot name).covers
  have hcoordinator : ∀ name, coordinatorRoot.Covers (coordinator name) := fun name =>
    (isAbove_child coordinatorRoot name).covers
  -- the three roots are apart, and below one of them the names tell the databases apart
  have hsiblings : ∀ root : Path, (child root db).Apart (child root other) := fun root =>
    apart_child hdb.2 hother.2 hne
  have hms : metadataRoot.Apart statisticsRoot := ⟨by decide, by decide⟩
  have hmc : metadataRoot.Apart coordinatorRoot := ⟨by decide, by decide⟩
  have hsc : statisticsRoot.Apart coordinatorRoot := ⟨by decide, by decide⟩
  rcases hp with rfl | rfl | rfl <;> rcases hq with rfl | rfl | rfl
  · exact hsiblings metadataRoot
  · exact hms.mono (hmetadata _) (hstatistics _)
  · exact hmc.mono (hmetadata _) (hcoordinator _)
  · exact hms.symm.mono (hstatistics _) (hmetadata _)
  · exact hsiblings statisticsRoot
  · exact hsc.mono (hstatistics _) (hcoordinator _)
  · exact hmc.symm.mono (hcoordinator _) (hmetadata _)
  · exact hsc.symm.mono (hcoordinator _) (hstatistics _)
  · exact hsiblings coordinatorRoot

end Path

/-! ### Calls that stay inside a database -/

/-- **A call stays inside a database**: it writes a node of the database, or removes a part of its
metadata or statistics. Whatever is read or listed stays as it is. -/
def StoreRequest.StaysIn (db : String) : StoreRequest → Prop
  | persist p _ => p.BelongsTo db
  | delete p => (Path.database db).Covers p ∨ (Path.child Path.statisticsRoot db).IsAbove p
  | _ => True

/-- A call that is about a database stays inside it. -/
theorem StoreRequest.OfDatabase.staysIn {db : String} {call : StoreRequest} (h : call.OfDatabase db) :
    call.StaysIn db := by
  cases call with
  | persist p v => exact h.imp id .inl
  | delete p => exact h.imp Path.IsAbove.covers id
  | _ => trivial

namespace Repository

variable {db : String} {r r' : Repository}

/-- **A call that stays inside a database** leaves every other node alone. -/
theorem leftAlone_answer (hdb : Path.IsName db) {call : StoreRequest} (hcall : call.StaysIn db)
    (r : Repository) {q : Path} (hq : ¬ q.BelongsTo db) :
    LeftAlone (Path.IsHomeOf db) r (answer call r).2 q := by
  -- a removal takes nothing outside; a write may bring empty nodes into being on its way down
  cases call with
  | persist p v =>
    have hne : q ≠ p := fun heq => hq (heq ▸ hcall)
    rcases r.query_persist_eq p v hne with hsame | ⟨habove, hnone, hempty⟩
    · exact .inl hsame
    · -- a node that comes to be above the written one is above a home
      obtain ⟨home, hhome, hq⟩ := (hcall.of_covers habove.covers).resolve_left hq
      exact .inr ⟨⟨home, hhome, hq⟩, hnone, hempty⟩
  | delete p =>
    refine .inl ?_
    have hinside : ∀ {home : Path}, home.IsAbove p → (home.Covers q → q.BelongsTo db) →
        (r.delete p).query q = r.query q := fun habove hbelongs =>
      r.query_delete_of_not_front p fun hfront => hq (hbelongs (Path.IsAbove.covers (habove.trans hfront)))
    rcases hcall with (rfl | habove) | habove
    · -- the whole database goes, and nothing that only continues its name
      exact (r.query_delete_child _ hdb).trans (if_neg fun hcovers => hq (.inl hcovers))
    · exact hinside habove .inl
    · exact hinside habove fun hcovers => .inr (.inl hcovers)
  | query p => exact .inl rfl
  | children p => exact .inl rfl
  | warn w => exact .inl rfl

/-- What is left alone for the sake of one database is the same for the others. -/
theorem sameAt_home {other : String} (hdb : Path.IsName db) (hother : Path.IsName other)
    (hne : db ≠ other)
    (h : ∀ q : Path, ¬ q.BelongsTo db → LeftAlone (Path.IsHomeOf db) r r' q) {home : Path}
    (hhome : home.IsHomeOf other) : SameAt home r r' := by
  intro q hq
  have hapart : ∀ {x : Path}, x.IsHomeOf db → x.Apart home := fun hx => hx.apart hdb hother hne hhome
  have hforeign : ¬ q.BelongsTo db := fun hbelongs => by
    obtain ⟨x, hx, hcovers⟩ := hbelongs.exists_home
    exact ((hapart hx).mono hcovers hq).1 (.refl q)
  refine (h q hforeign).resolve_right ?_
  rintro ⟨⟨x, hx, habove⟩, -⟩
  exact ((hapart hx).mono (.refl x) hq).2 habove.covers

end Repository

/-! ### Plans on terms without a state -/

namespace Plan

variable {I : Interface} {T : Terms I Unit} {α β : Type} {P : α → Prop} {Q : β → Prop}

/-- **A plan honors terms** on which there is no state but the replies, and its result is of a kind. -/
def Honors (T : Terms I Unit) (P : α → Prop) (p : Plan I α) : Prop :=
  p.Keeps T (fun result _ => ∀ a, result = .ok a → P a) ()

namespace Honors

theorem pure {a : α} (ha : P a) : Honors T P (Pure.pure a : Plan I α) := fun _ h => Except.ok.inj h ▸ ha

theorem stop (f : Failure) : Honors T P (Plan.stop f : Plan I α) := fun _ h => by cases h

/-- A result that is an error honours everything. -/
theorem ofExcept {result : Except Error α} (h : ∀ a, result = .ok a → P a) :
    Honors T P (Plan.ofExcept result : Plan I α) := by
  cases result with
  | ok a => exact pure (h a rfl)
  | error e => exact stop _

/-- One plan after the other, the second one for every result that the first one may have. -/
theorem seq {p : Plan I α} {f : α → Plan I β} (hp : Honors T P p) (hf : ∀ a, P a → Honors T Q (f a)) :
    Honors T Q (p >>= f) :=
  Keeps.bind hp (fun a _ ha => hf a (ha a rfl)) fun _ _ _ _ h => by cases h

theorem forM {γ : Type} {f : γ → Plan I Unit} {l : List γ}
    (h : ∀ c ∈ l, Honors T (fun _ => True) (f c)) : Honors T (fun _ => True) (l.forM f) := by
  induction l with
  | nil => exact pure trivial
  | cons c l ih =>
    exact (h c List.mem_cons_self).seq fun _ _ => ih fun b hb => h b (List.mem_cons_of_mem _ hb)

/-- An error that is caught is a result, of which nothing is known. -/
theorem attempt {p : Plan I α} (hp : Honors T P p) : Honors T (fun _ => True) p.attempt :=
  keeps_attempt.2 (Keeps.mono hp fun _ _ _ _ _ => trivial)

end Honors

end Plan

/-! ### Operations that stay inside a database -/

namespace Generation

variable {g g' : Generation} {db : String} {d : Database}

/-- A database that is found has the name that it was looked up under. -/
theorem SelfNamed.database (hg : g.SelfNamed) (h : g.database db = .ok d) : d.name = db := by
  unfold Generation.database at h
  cases hd : g.databases.get? db with
  | none => rw [hd] at h; cases h
  | some found =>
    rw [hd] at h
    obtain rfl : found = d := Except.ok.inj h
    exact hg db found hd

/-- A database is put into the next generation under its own name. -/
theorem SelfNamed.succeededBy (hg : g.SelfNamed) (h : g.succeededBy d = .ok g') : g'.SelfNamed := by
  unfold SelfNamed
  rw [databases_of_succeededBy h]
  exact hg.insert d

/-- A rebuilt generation has every database under its own name, the new one included. -/
theorem SelfNamed.rebuild (hg : g.SelfNamed) {diff : ResourceDiff} {isNew : Bool}
    (h : diff.rebuild db isNew g = .ok g') : g'.SelfNamed := by
  unfold ResourceDiff.rebuild at h
  split at h
  · exact hg.succeededBy h
  · split at h
    · exact hg.succeededBy h
    · cases h

end Generation

/-- **The terms on which an operation stays inside its database**: its calls do, and what it installs is
the database. Generations that it sees have every database under its own name. -/
def insideTerms (db : String) : Terms clusterInterface Unit where
  Owed
    | .store call, _ => call.StaysIn db
    | .build _ _ _ before, _ => before.SelfNamed
    | .installDatabase d, _ => d.name = db
    | _, _ => True
  Answers
    | .current, _, g, _ => g.SelfNamed
    | .build .., _, reply, _ => ∀ g, reply = .ok g → g.SelfNamed
    | .awaitGeneration .., _, reply, _ => ∀ g, reply = some g → g.SelfNamed
    | _, _, _, _ => True

/-- **An operation stays inside a database**, and its result is of a kind. -/
abbrev Cluster.StaysIn {α : Type} (db : String) (P : α → Prop) (p : Cluster α) : Prop :=
  p.Honors (insideTerms db) P

namespace Cluster.StaysIn

variable {α : Type} {db : String} {P : α → Prop}

/-- An operation on the repository whose calls stay inside the database. -/
theorem access {p : Access α} (h : p.Uses (StoreRequest.StaysIn db)) :
    StaysIn db (fun _ => True) (Cluster.access p) := by
  unfold Cluster.access
  induction p with
  | done a => exact fun _ _ => trivial
  | stop f => exact fun _ _ => trivial
  | ask call k ih => exact ⟨h.1, fun reply _ _ => ih reply (h.2 reply)⟩

/-- A request, and what follows each of its replies. -/
theorem request {request : ClusterRequest} {k : request.Reply → Cluster α}
    (howed : (insideTerms db).Owed request ())
    (hnext : ∀ reply, (insideTerms db).Answers request () reply () → StaysIn db P (k reply)) :
    StaysIn db P (Plan.ask request k : Cluster α) := ⟨howed, fun reply _ hreply => hnext reply hreply⟩

theorem warn (w : Warning) : StaysIn db (fun _ => True) (Cluster.warn w) :=
  access (p := Access.warn w) ⟨trivial, fun _ => trivial⟩

/-- What is seen of the current generation is that its databases stand under their own names. -/
theorem current : StaysIn db Generation.SelfNamed Cluster.current :=
  .request trivial fun _ h => .pure h

/-- So do those of a generation that is built. -/
theorem build {name : String} {isNew : Bool} {diff : ResourceDiff} {before : Generation}
    (hbefore : before.SelfNamed) :
    StaysIn db Generation.SelfNamed (Cluster.build name isNew diff before) := by
  refine .request hbefore fun reply h => ?_
  cases reply with
  | ok g => exact .pure (h g rfl)
  | error f => exact .stop f

theorem openPool (unit : String) (properties : PoolProperties) :
    StaysIn db (fun _ => True) (Cluster.openPool unit properties) :=
  .request trivial fun _ _ => .pure trivial

/-- Only the database itself is installed. -/
theorem installDatabase {d : Database} (hd : d.name = db) :
    StaysIn db (fun _ => True) (Cluster.installDatabase d) := by
  refine .request hd fun reply _ => ?_
  cases reply with
  | ok g => exact .pure trivial
  | error f => exact .stop f

/-- So do those of a generation that was waited for. -/
theorem awaitGeneration (goal : Goal) (timeoutMs : Nat) :
    StaysIn db (fun found => ∀ g, found = some g → g.SelfNamed)
      (Cluster.awaitGeneration goal timeoutMs) :=
  .request trivial fun _ h => .pure h

theorem retire (policy : DrainPolicy) (pools : List PoolId) :
    StaysIn db (fun _ => True) (Cluster.retire policy pools) :=
  .request trivial fun _ _ => .pure trivial

theorem announce (name : String) (event : DatabaseEvent) :
    StaysIn db (fun _ => True) (Cluster.announce name event) :=
  .request trivial fun _ _ => .ofExcept fun _ _ => trivial

end Cluster.StaysIn

/-! ### Changes of storage units -/

section Units

variable {db : String}

/-- Pools are opened outside of the store. -/
theorem Switch.staysIn_openFrom (policy : DrainPolicy) (l : List (String × PoolProperties)) :
    ∀ opened : SortedMap PoolId, Cluster.StaysIn db (fun _ => True) (openFrom policy opened l) := by
  induction l with
  | nil => exact fun opened => .pure trivial
  | cons entry l ih =>
    obtain ⟨unit, properties⟩ := entry
    refine fun opened => (Cluster.StaysIn.openPool unit properties).seq fun reply _ => ?_
    cases reply with
    | ok pool => exact ih _
    | error e =>
      exact (Cluster.StaysIn.warn _).seq fun _ _ => (Cluster.StaysIn.retire _ _).seq fun _ _ => .stop _

/-- To work out a change, nothing is stored. -/
theorem UnitChange.staysIn_diff (policy : DrainPolicy) (r : Resource) (change : UnitChange) :
    Cluster.StaysIn db (fun _ => True) (change.diff policy r) := by
  refine change.diff_rule (motive := Cluster.StaysIn db _) policy r (fun _ => .stop _)
    fun units make _ => ?_
  exact (Switch.staysIn_openFrom policy _ _).seq fun _ _ => .pure trivial

/-- **A change of storage units** installs what a build made of the database. -/
theorem UnitChange.staysIn_apply {before : Generation} (hbefore : before.SelfNamed) (diff : ResourceDiff)
    (change : UnitChange) : Cluster.StaysIn db (fun _ => True) (change.apply db before diff) := by
  unfold UnitChange.apply
  refine (Cluster.StaysIn.build hbefore).seq fun reload hreload => ?_
  have hdatabase : Cluster.StaysIn db (fun d : Database => d.name = db)
      (Plan.ofExcept (reload.database db)) := .ofExcept fun d hd => hreload.database hd
  refine hdatabase.seq fun d hd => ?_
  have hpersist : (change.persist db before reload).Uses (StoreRequest.StaysIn db) :=
    (change.uses_persist before reload).mono fun _ h => h.staysIn
  refine (Cluster.StaysIn.access hpersist).seq fun _ _ => ?_
  exact (Cluster.StaysIn.installDatabase hd).seq fun _ _ => .pure trivial

/-- **A change of storage units stays inside its database.** -/
theorem Service.staysIn_switchUnits (service : Service) (change : UnitChange) :
    Cluster.StaysIn db (fun _ => True) (service.switchUnits db change) := by
  unfold switchUnits
  refine Cluster.StaysIn.current.seq fun before hbefore => ?_
  have hdatabase : Cluster.StaysIn db (fun _ => True) (Plan.ofExcept (before.database db)) :=
    .ofExcept fun _ _ => trivial
  refine hdatabase.seq fun d _ => (change.staysIn_diff service.drain d.resource).seq fun diff _ => ?_
  refine (change.staysIn_apply hbefore diff).attempt.seq fun result _ => ?_
  cases result with
  | ok _ => exact Cluster.StaysIn.retire _ _
  | error e =>
    exact (Cluster.StaysIn.warn _).seq fun _ _ => (Cluster.StaysIn.retire _ _).seq fun _ _ => .stop _

/-- So does every operation that consists of such changes. -/
theorem UnitOperation.staysIn_run (service : Service) (op : UnitOperation) :
    Cluster.StaysIn db (fun _ => True) (op.run service db) := by
  cases op with
  | register units => exact service.staysIn_switchUnits _
  | alter units => exact service.staysIn_switchUnits _
  | unregister units =>
    have hload : (Stored.loadUnits db).Uses (StoreRequest.StaysIn db) :=
      (UnitChange.uses_ofDatabase (Stored.uses_loadUnits db)).mono fun _ h => h.staysIn
    refine (Cluster.StaysIn.access hload).seq fun stored _ => .forM fun unit _ => ?_
    split
    · exact service.staysIn_switchUnits _
    · exact .pure trivial

end Units

/-! ### Changes of rules and schemas -/

section Schemas

variable {db : String}

/-- What is below the metadata of a database stays inside the database. -/
theorem Access.uses_staysIn {α : Type} {p : Access α} {a : Path} (h : p.Uses (StoreRequest.Concerns a))
    (ha : (Path.database db).Covers a) : p.Uses (StoreRequest.StaysIn db) :=
  (Access.uses_mono h ha).mono fun _ hcall => StoreRequest.OfDatabase.staysIn (.inl hcall)

/-- What is below the schemas of a database is inside of it, whatever the names are. -/
theorem Access.uses_staysIn_of_schema {α : Type} {p : Access α} {schema : String}
    (h : p.Uses (StoreRequest.Concerns (Path.schema db schema))) : p.Uses (StoreRequest.StaysIn db) :=
  Access.uses_staysIn h ((Path.database_covers_schemas db).trans (Path.isAbove_child _ schema).covers)

/-- A schema is dropped inside its database. -/
theorem Stored.uses_dropSchema (db schema : String) :
    (dropSchema db schema).Uses (StoreRequest.StaysIn db) :=
  Access.uses_staysIn (Access.uses_delete (Path.isAbove_child _ schema)) (Path.database_covers_schemas db)

/-- The rules of a database are inside of it. -/
theorem Path.database_covers_databaseRules (db : String) : (database db).Covers (databaseRules db) :=
  (isAbove_child _ _).covers

/-- **A change of rules stays inside its database**: it writes rules, waits, and writes schemas. -/
theorem RuleChange.staysIn_run (service : Service) (change : RuleChange) :
    Cluster.StaysIn db (fun _ => True) (change.run service db) := by
  rcases change.run_cases service db with hrun | hrun
  · rw [hrun]
    exact .pure trivial
  have hrules : (Path.database db).Covers (Path.databaseRules db) :=
    Path.database_covers_databaseRules db
  rw [hrun]
  refine Cluster.StaysIn.current.seq fun before _ => ?_
  refine (Cluster.StaysIn.access (Access.uses_staysIn change.uses_write hrules)).seq fun _ _ => ?_
  -- waiting is reading the rules and looking at generations
  have hawait : Cluster.StaysIn db (fun _ => True) (service.awaitReload db before) := by
    unfold Service.awaitReload
    refine (Cluster.StaysIn.access (Access.uses_staysIn (Stored.uses_loadRules db) hrules)).seq fun rules _ => ?_
    refine (Cluster.StaysIn.awaitGeneration _ _).seq fun found _ => ?_
    cases found with
    | none => exact .stop _
    | some reload => exact .pure trivial
  exact hawait.seq fun reload _ => Cluster.StaysIn.access
    (Access.uses_staysIn (change.uses_writeReload _ _) (Path.database_covers_schemas db))

/-- What is announced of a database belongs to it. -/
theorem Service.Notifies.staysIn_notify {service : Service} (h : service.Notifies)
    (event : DatabaseEvent) : Cluster.StaysIn db (fun _ => True) (service.notify db event) := by
  rcases h db event with heq | heq
  · rw [heq]
    exact Cluster.StaysIn.access (p := Coordinator.publish db event)
      ⟨.inr (.inr rfl), fun reply => uses_ofExcept reply⟩
  · rw [heq]
    exact Cluster.StaysIn.announce db event

namespace SchemaOperation

/-- The database of an operation. -/
def database : SchemaOperation → String
  | createDatabase db => db
  | dropDatabase db => db
  | createSchema db _ => db
  | dropSchemas db _ => db
  | createTable db _ _ => db
  | dropTable db _ _ => db
  | alterSchema db _ _ _ _ _ => db

/-- **An operation on schemas stays inside its database.** -/
theorem staysIn_run {service : Service} (hservice : service.Notifies) (op : SchemaOperation) :
    Cluster.StaysIn op.database (fun _ => True) (op.run service) := by
  -- only creating and dropping a database write its own node; everything else is below one of its
  -- schemas
  cases op with
  | createDatabase db =>
    have hadd : (Stored.addDatabase db).Uses (StoreRequest.StaysIn db) :=
      ⟨.inl (.refl _), fun reply => uses_ofExcept reply⟩
    exact (Cluster.StaysIn.access hadd).seq fun _ _ => hservice.staysIn_notify .create
  | dropDatabase db =>
    have hdrop : (Stored.dropDatabase db).Uses (StoreRequest.StaysIn db) :=
      ⟨.inl (.refl _), fun reply => uses_ofExcept reply⟩
    exact (hservice.staysIn_notify .drop).seq fun _ _ => Cluster.StaysIn.access hdrop
  | createSchema db schema => exact Cluster.StaysIn.access (Access.uses_staysIn_of_schema (Stored.uses_addSchema db schema))
  | dropSchemas db schemas =>
    exact Cluster.StaysIn.access (Uses.forM fun schema _ => Stored.uses_dropSchema db schema)
  | createTable db schema table =>
    exact Cluster.StaysIn.access (Access.uses_staysIn_of_schema (Stored.uses_persistTables db schema [table]))
  | dropTable db schema table =>
    exact Cluster.StaysIn.access (Access.uses_staysIn_of_schema (Stored.uses_dropTable db schema table))
  | alterSchema db schema tables views droppedTables droppedViews =>
    have htables := Stored.uses_persistTables db schema tables
    have hviews := Stored.uses_persistViews db schema views
    have hview : ∀ view, (Path.schema db schema).IsAbove (Path.view db schema view) := fun view =>
      (Path.isAbove_child _ _).covers.isAbove_of_isAbove (Path.isAbove_child _ view)
    refine Cluster.StaysIn.access ?_
    exact (Access.uses_staysIn_of_schema htables).seq fun _ =>
      (Access.uses_staysIn_of_schema hviews).seq fun _ =>
        (Uses.forM fun table _ => Access.uses_staysIn_of_schema (Stored.uses_dropTable db schema table)).seq
          fun _ => Uses.forM fun view _ => Access.uses_staysIn_of_schema (Access.uses_delete (hview view))

end SchemaOperation

/-- **Renaming a schema stays inside its database**, under the new name as under the old one. -/
theorem Service.staysIn_renameSchema (schema newName : String) :
    Cluster.StaysIn db (fun _ => True) (renameSchema db schema newName) := by
  unfold renameSchema
  refine Cluster.StaysIn.current.seq fun g _ => ?_
  have hdatabase : Cluster.StaysIn db (fun _ => True) (Plan.ofExcept (g.database db)) :=
    .ofExcept fun _ _ => trivial
  refine hdatabase.seq fun d _ => ?_
  -- without the schema nothing is done; with it, it is written and dropped
  cases d.schemas.get? schema with
  | none => exact .stop _
  | some found =>
    refine Cluster.StaysIn.access ?_
    have hdrop := Stored.uses_dropSchema db schema
    dsimp only
    split
    · exact (Access.uses_staysIn_of_schema (Stored.uses_addSchema db newName)).seq fun _ => hdrop
    · have htables := Stored.uses_persistTables db newName found.tables.values
      have hviews := Stored.uses_persistViews db newName found.views.values
      exact (Access.uses_staysIn_of_schema htables).seq fun _ =>
        (Access.uses_staysIn_of_schema hviews).seq fun _ => hdrop

/-- Altering the rule of undistributed tables stays inside its database. -/
theorem Service.staysIn_alterSingleRule (rules : RuleSet) :
    Cluster.StaysIn db (fun _ => True) (alterSingleRule db rules) := by
  unfold alterSingleRule
  cases rules.single? with
  | none => exact .stop _
  | some rule =>
    -- the rule is written as any other one
    exact Cluster.StaysIn.access (Access.uses_staysIn
      (RuleChange.uses_write (.alter (some (.single rule)))) (Path.database_covers_databaseRules db))

end Schemas

/-! ### Runs -/

namespace Stage

/-- **A step stays inside a database**: other nodes are left alone, and other databases of the current
generation are the same. -/
structure Confined (db : String) (s s' : Stage) : Prop where
  nodes : ∀ q : Path, ¬ q.BelongsTo db → LeftAlone (Path.IsHomeOf db) s.repository s'.repository q
  databases : ∀ name, name ≠ db → s'.generation.databases.get? name = s.generation.databases.get? name

variable {db : String} {s s' : Stage}

/-- Where the store and the generation stay as they are, no database is touched. -/
theorem Confined.of_eq (hrepository : s'.repository = s.repository)
    (hgeneration : s'.generation = s.generation) : s.Confined db s' where
  nodes _ _ := .inl (by rw [hrepository])
  databases _ _ := by rw [hgeneration]

/-- Whatever is not done is confined. -/
theorem Confined.refl (db : String) (s : Stage) : s.Confined db s := .of_eq rfl rfl

/-- **A call of the repository** that stays inside the database, answered or refused by a fault. -/
theorem confined_answerStore (hdb : Path.IsName db) (s : Stage) {call : StoreRequest}
    (hcall : call.StaysIn db) : s.Confined db (answerStore call s).2 where
  nodes q hq := by
    obtain ⟨refusal, -, hanswer⟩ := s.answerStore_answers call
    have hrepository : (Repository.answerUnless refusal call s.repository).2
        = (answerStore call s).2.repository := congrArg Prod.snd hanswer
    rw [← hrepository]
    cases refusal with
    | some e => exact .inl rfl
    | none => exact leftAlone_answer hdb hcall s.repository hq
  databases name _ := by rw [(s.answerStore_frame call).1]

/-- **The database is installed** into the current generation; the others stay there. -/
theorem confined_of_succeededBy (hself : s.generation.SelfNamed) {d : Database} {g : Generation}
    (hg : s.generation.succeededBy d = .ok g) :
    s.Confined d.name { s with generation := g } ∧ g.SelfNamed := by
  refine ⟨⟨fun q _ => .inl rfl, fun name hne => ?_⟩, hself.succeededBy hg⟩
  show g.databases.get? name = _
  rw [Generation.databases_of_succeededBy hg, SortedMap.get?_insert_of_ne _ _ hne]

/-- **One request** that is asked for on the terms stays inside the database and is answered on the
terms, also if it is refused. -/
theorem confined_answerUnless (hdb : Path.IsName db) (hself : s.generation.SelfNamed)
    (failure : Option Error) {r : ClusterRequest} (howed : (insideTerms db).Owed r ()) :
    s.Confined db (answerUnless failure r s).2
      ∧ (insideTerms db).Answers r () (answerUnless failure r s).1 ()
      ∧ (answerUnless failure r s).2.generation.SelfNamed := by
  have hled := s.leadsTo_answerUnless failure r
  generalize answerUnless failure r s = answered at hled ⊢
  cases hled with
  | answered call =>
    refine ⟨s.confined_answerStore hdb howed, trivial, ?_⟩
    rw [(s.answerStore_frame call).1]
    exact hself
  | current => exact ⟨.refl db s, hself, hself⟩
  | built name isNew diff before =>
    exact ⟨.refl db s, fun _ hg => Generation.SelfNamed.rebuild howed hg, hself⟩
  | notBuilt name isNew diff before e => exact ⟨.refl db s, fun _ h => (by cases h), hself⟩
  | @installed d g hg =>
    obtain rfl : d.name = db := howed
    obtain ⟨hconfined, hinstalled⟩ := confined_of_succeededBy hself hg
    exact ⟨hconfined, trivial, hinstalled⟩
  | found timeoutMs hgoal =>
    -- what is waited for is the current generation
    exact ⟨.refl db s, fun _ hg => Option.some.inj hg ▸ hself, hself⟩
  | notFound goal timeoutMs => exact ⟨.refl db s, fun _ h => (by cases h), hself⟩
  -- the other requests touch neither the store nor the generation
  | _ => exact ⟨.of_eq rfl rfl, trivial, hself⟩

end Stage

namespace RuleRun

variable {db : String} {run : RuleRun}

/-- What is left of a call stays inside its database, and the generation that it sees next has every
database under its own name. -/
structure Inside (db : String) (run : RuleRun) : Prop where
  rest : Cluster.StaysIn db (fun _ => True) run.rest
  selfNamed : run.stage.generation.SelfNamed

/-- **One request of the call** stays inside the database. -/
theorem Inside.next (hdb : Path.IsName db) (h : run.Inside db) (refusal : Option String) :
    run.stage.Confined db (run.step (.next refusal)).stage ∧ (run.step (.next refusal)).Inside db := by
  obtain ⟨s, rest⟩ := run
  cases rest with
  | done a => exact ⟨.refl db s, h⟩
  | stop f => exact ⟨.refl db s, h⟩
  | ask r k =>
    obtain ⟨hconfined, hanswers, hself⟩ :=
      Stage.confined_answerUnless hdb h.selfNamed (refusal.map .repository) h.rest.1
    exact ⟨hconfined, h.rest.2 _ _ hanswers, hself⟩

/-- **One move** leaves the nodes outside of the database alone, and does to the other databases of the
generation what it does where there is no call. -/
theorem Inside.step (hdb : Path.IsName db) (h : run.Inside db) {move : RuleMove}
    (hmove : ∀ g, move = .install g → g.SelfNamed) {without : Stage}
    (hsame : ∀ name, name ≠ db →
      run.stage.generation.databases.get? name = without.generation.databases.get? name) :
    (run.step move).Inside db
      ∧ (∀ q : Path, ¬ q.BelongsTo db →
        LeftAlone (Path.IsHomeOf db) run.stage.repository (run.step move).stage.repository q)
      ∧ ∀ name, name ≠ db → (run.step move).stage.generation.databases.get? name
        = (RuleRun.step ⟨without, pure ()⟩ move).stage.generation.databases.get? name := by
  -- a generation that is installed from outside changes both runs alike
  cases move with
  | install g =>
    refine ⟨⟨h.rest, ?_⟩, fun q _ => .inl ?_, fun name _ => ?_⟩
    · show (run.stage.install g).generation.SelfNamed
      rw [run.stage.generation_install]
      exact hmove g rfl
    · show (run.stage.install g).repository.query q = _
      rw [run.stage.repository_install]
    · show (run.stage.install g).generation.databases.get? name
        = (without.install g).generation.databases.get? name
      rw [run.stage.generation_install, without.generation_install]
  | next refusal =>
    obtain ⟨hconfined, hinside⟩ := h.next hdb refusal
    exact ⟨hinside, hconfined.nodes, fun name hne => (hconfined.databases name hne).trans (hsame name hne)⟩

/-- A node on which there is no call does not notice when a call has its turn. -/
theorem step_without (without : Stage) (move : RuleMove) :
    RuleRun.step ⟨without, pure ()⟩ move
      = ⟨(RuleRun.step ⟨without, pure ()⟩ move).stage, pure ()⟩ := by
  cases move <;> rfl

/-- **A whole run** does so, too. -/
theorem Inside.after (hdb : Path.IsName db) (h : run.Inside db) {moves : List RuleMove}
    (hmoves : ∀ g, .install g ∈ moves → g.SelfNamed) {without : Stage}
    (hsame : ∀ name, name ≠ db →
      run.stage.generation.databases.get? name = without.generation.databases.get? name) :
    (∀ q : Path, ¬ q.BelongsTo db →
        LeftAlone (Path.IsHomeOf db) run.stage.repository (run.after moves).stage.repository q)
      ∧ ∀ name, name ≠ db → (run.after moves).stage.generation.databases.get? name
        = (RuleRun.after ⟨without, pure ()⟩ moves).stage.generation.databases.get? name := by
  induction moves generalizing run without with
  | nil => exact ⟨fun _ _ => .inl rfl, hsame⟩
  | cons move moves ih =>
    have hmove : ∀ g, move = .install g → g.SelfNamed := fun g hg =>
      hmoves g (hg ▸ List.mem_cons_self)
    -- one move, and then the other ones from where it has led
    obtain ⟨hinside, hnodes, hdatabases⟩ := h.step hdb hmove hsame
    obtain ⟨hnodes', hdatabases'⟩ :=
      ih hinside (fun g hg => hmoves g (List.mem_cons_of_mem _ hg)) hdatabases
    rw [← step_without] at hdatabases'
    exact ⟨fun q hq => (hnodes q hq).trans (hnodes' q hq), hdatabases'⟩

end RuleRun

namespace NodeOperation

/-- The database that an operation names, if it names one. -/
def database? : NodeOperation → Option String
  | onSchemas op => some op.database
  | renameSchema db _ _ => some db
  | onUnits db _ => some db
  | alterSingleRule db _ => some db
  | onRules db _ => some db
  | alterGlobalRule _ => none
  | alterProperties _ => none

variable {db : String}

/-- **Every operation that names a database stays inside it.** -/
theorem staysIn_run {service : Service} (hservice : service.Notifies) {op : NodeOperation}
    (hop : op.database? = some db) : Cluster.StaysIn db (fun _ => True) (op.run service) := by
  -- each operation on a database stays in it by its own lemma; the last two name no database
  cases op with
  | onSchemas op =>
    obtain rfl : op.database = db := Option.some.inj hop
    exact op.staysIn_run hservice
  | renameSchema name schema newName =>
    obtain rfl : name = db := Option.some.inj hop
    exact Service.staysIn_renameSchema schema newName
  | onUnits name op =>
    obtain rfl : name = db := Option.some.inj hop
    exact op.staysIn_run service
  | alterSingleRule name rules =>
    obtain rfl : name = db := Option.some.inj hop
    exact Service.staysIn_alterSingleRule rules
  | onRules name change =>
    obtain rfl : name = db := Option.some.inj hop
    exact change.staysIn_run service
  | alterGlobalRule rule => cases hop
  | alterProperties properties => cases hop

/-- **An operation that names a database stays inside of it**, whatever calls fail, whatever generations
are installed meanwhile, and wherever it has come to, with success or with an error.

* Every node that does not belong to the database keeps its presence and its text, or it was missing
  above a home of the database and is there without a text.
* The other databases of the current generation are what they are without the operation.
* So a database of another name keeps all its nodes, also if one of the names continues the other. -/
theorem stays_in_database (service : Service) (hservice : service.Notifies) (op : NodeOperation)
    (db : String) (hop : op.database? = some db) (hdb : Path.IsName db) (stage : Stage)
    (hself : stage.generation.SelfNamed) (moves : List RuleMove)
    (hmoves : ∀ g, .install g ∈ moves → g.SelfNamed) :
    let final := (RuleRun.after ⟨stage, op.run service⟩ moves).stage
    let without := (RuleRun.after ⟨stage, pure ()⟩ moves).stage
    (∀ q : Path, ¬ q.BelongsTo db →
        final.repository.query q = stage.repository.query q
          ∨ (∃ home : Path, home.IsHomeOf db ∧ q.IsAbove home)
            ∧ stage.repository.query q = none ∧ final.repository.query q = some "")
      ∧ (∀ other, other ≠ db →
          final.generation.databases.get? other = without.generation.databases.get? other)
      ∧ ∀ other, Path.IsName other → other ≠ db → ∀ home : Path, home.IsHomeOf other →
          SameAt home stage.repository final.repository := by
  intro final without
  have hinside : RuleRun.Inside db ⟨stage, op.run service⟩ := ⟨staysIn_run hservice hop, hself⟩
  -- the run without the operation is the one in which there is nothing left to be done
  obtain ⟨hnodes, hdatabases⟩ := hinside.after hdb hmoves fun _ _ => rfl
  exact ⟨hnodes, hdatabases, fun other hother hne home hhome =>
    sameAt_home hdb hother hne.symm hnodes hhome⟩

/-- Two databases, of which one has a name that continues the name of the other. -/
def twoNames : Stage where
  repository := ((Repository.memory ⟨∅⟩).persist (Path.database "d") "").persist (Path.database "dd") "kept"
  generation := { databases := Generation.databasesOf [.empty "d", .empty "dd"] }

/-- The database is dropped, and the one whose name continues its name stays. -/
theorem stays_in_database_continued_name :
    let service : Service := ⟨500, ⟨1, 1⟩, fun db event => Cluster.access (Coordinator.publish db event)⟩
    let op : NodeOperation := .onSchemas (.dropDatabase "d")
    let moves : List RuleMove := [.next none, .next none]
    let final := (RuleRun.after ⟨twoNames, op.run service⟩ moves).stage
    service.Notifies ∧ op.database? = some "d" ∧ Path.IsName "d" ∧ twoNames.generation.SelfNamed
      ∧ final.repository.query (Path.database "d") = none
      ∧ final.repository.query (Path.database "dd") = some "kept" := by
  intro service op moves final
  have hservice : service.Notifies := fun db event => .inl rfl
  have hself : twoNames.generation.SelfNamed := Generation.selfNamed_of_databasesOf rfl
  have hnames : Path.IsName "d" ∧ Path.IsName "dd" ∧ "dd" ≠ "d" := by decide
  have hmoves : ∀ g, .install g ∈ moves → g.SelfNamed := by simp [moves]
  obtain ⟨-, -, hothers⟩ :=
    stays_in_database service hservice op "d" rfl hnames.1 twoNames hself moves hmoves
  -- the other name continues the first one, and is kept apart by the slash
  have hsame := hothers "dd" hnames.2.1 hnames.2.2 (Path.database "dd") (.inl rfl)
  have hdropped : final.repository.query (Path.database "d") = none := by decide +kernel
  have hstored : twoNames.repository.query (Path.database "dd") = some "kept" := by decide +kernel
  exact ⟨hservice, rfl, hnames.1, hself, hdropped, (hsame _ (.refl _)).trans hstored⟩

end NodeOperation

end ClusterCatalog
