import ClusterCatalog.Cluster.RuleChange
import ClusterCatalog.Cluster.UnitChange
import ClusterCatalog.Proofs.Cluster.Exchange
import ClusterCatalog.Proofs.Cluster.Reload
import ClusterCatalog.Proofs.Cluster.Schemas
import ClusterCatalog.Proofs.Store.Writers

/-!
# Operations on a node leave the repository tidy

An operation on a node gives way to others where it opens a pool and where it waits for a generation.
What it relies on there is that the repository is tidy, and this is also what it owes to the others.
Between two such requests it runs alone. The `tidyTerms` say so: whenever something else is asked for
than a call of the repository, the repository is tidy; after a request that takes time it is tidy again,
whatever has happened meanwhile (`keeps_of_givesWay`); generations may be any whose schemas have names.

`Cluster.Tidies` holds of an operation that keeps to these terms and leaves the repository tidy,
successful or not. It has one law for each way of putting operations together, and every
administrative operation has it (`NodeOperation.tidies_run`).
-/

namespace ClusterCatalog

open Plan Repository

/-! ### Generations with names -/

namespace Generation.HasNames

variable {g g' : Generation} {d : Database} {db : String}

/-- The schemas of a database have names, and none has no names to lack. -/
theorem schemas (hg : g.HasNames) (db : String) : (g.schemas db).HaveNames := by
  unfold Generation.schemas
  cases hd : g.databases.get? db with
  | none => exact fun key x hx => by cases hx
  | some d => exact hg db d hd

/-- So have those of a database that was looked up. -/
theorem database (hg : g.HasNames) (hd : g.database db = .ok d) : d.schemas.HaveNames := by
  rw [← schemas_of_database hd]
  exact hg.schemas db

/-- A database whose schemas have names may be put into the next generation. -/
theorem succeededBy (hg : g.HasNames) (hd : d.schemas.HaveNames) (h : g.succeededBy d = .ok g') :
    g'.HasNames := by
  intro db d' hd'
  rw [databases_of_succeededBy h, SortedMap.get?_insert] at hd'
  split at hd'
  · exact Option.some.inj hd' ▸ hd
  · exact hg db d' hd'

/-- Building a generation from one that has names gives one that has. -/
theorem rebuild (hg : g.HasNames) {diff : ResourceDiff} {isNew : Bool}
    (h : diff.rebuild db isNew g = .ok g') : g'.HasNames := by
  unfold ResourceDiff.rebuild at h
  -- the rebuilt database keeps its schemas, and a new one has none
  split at h
  · rename_i d hd
    exact hg.succeededBy (d := { d with resource := diff.applyTo d.resource }) (hg db d hd) h
  · split at h
    · exact hg.succeededBy (d := { Database.empty db with resource := diff.applyTo {} })
        (fun key x hx => by cases hx) h
    · cases h

end Generation.HasNames

/-! ### Terms -/

/-- Whether a request takes time, so that other operations may come in between. -/
def ClusterRequest.takesTime : ClusterRequest → Bool
  | .openPool .. => true
  | .awaitGeneration .. => true
  | _ => false

/-- **The terms of a node that is shared**: the repository is tidy whenever something else is asked for
than a call of it, and what is installed or built on has names. -/
def tidyTerms : Terms clusterInterface Repository where
  Owed
    | .store call, r => briefTerms.Owed call r
    | .build _ _ _ before, r => r.Tidy ∧ before.HasNames
    | .installDatabase d, r => r.Tidy ∧ d.schemas.HaveNames
    | _, r => r.Tidy
  Answers
    | .store call, r, reply, r' => briefTerms.Answers call r reply r'
    | .current, r, g, r' => g.HasNames ∧ r' = r
    | .build .., r, reply, r' => (∀ g, reply = .ok g → g.HasNames) ∧ r' = r
    | .openPool .., _, _, r' => r'.Tidy
    | .awaitGeneration .., _, reply, r' => (∀ g, reply = some g → g.HasNames) ∧ r'.Tidy
    | _, r, _, r' => r' = r

/-- Whatever is asked for, no item has more than two revisions. -/
theorem brief_of_owed {request : ClusterRequest} {r : Repository} (h : tidyTerms.Owed request r) :
    r.Brief := by
  have htidy : r.Tidy → r.Brief := Tidy.brief
  -- a call of the repository may find it less than tidy, and everything else finds it tidy
  cases request with
  | store call =>
    have hbrief : r.Brief ∧ call.Mindful r := h
    exact hbrief.1
  | build db isNew diff before => exact htidy h.1
  | installDatabase d => exact htidy h.1
  | current => exact htidy h
  | openPool unit properties => exact htidy h
  | awaitGeneration goal timeoutMs => exact htidy h
  | retire policy pools => exact htidy h
  | announce db event => exact htidy h

/-- Whether an operation gives way to others: it is over, or its next request takes time. -/
def Cluster.givesWay {α : Type} : Cluster α → Bool
  | .ask request _ => request.takesTime
  | _ => true

/-- **An operation that gives way** leaves the repository tidy, unless numbers have run out, and goes on
from wherever the repository is tidy. -/
theorem keeps_of_givesWay {α : Type} {p : Cluster α} {r : Repository} (hway : p.givesWay = true)
    (hfull : ¬ r.Full) (h : p.Keeps tidyTerms Settles r) :
    r.Tidy ∧ ∀ r' : Repository, r'.Tidy → p.Keeps tidyTerms Settles r' := by
  -- an operation that gives way has ended, or opens a pool, or waits for a generation
  cases p with
  | done a => exact ⟨h.resolve_right fun hover => hfull hover.2, fun _ hr' => .inl hr'⟩
  | stop f => exact ⟨h.resolve_right fun hover => hfull hover.2, fun _ hr' => .inl hr'⟩
  | ask request k =>
    cases request with
    | openPool unit properties => exact ⟨h.1, fun _ hr' => ⟨hr', h.2⟩⟩
    | awaitGeneration goal timeoutMs => exact ⟨h.1, fun _ hr' => ⟨hr', h.2⟩⟩
    | _ => cases hway

/-! ### Operations that leave a repository tidy -/

/-- **An operation on a node tidies**: it keeps to the terms, leaves the repository tidy, and its
result is of a kind. -/
def Cluster.Tidies {α : Type} (P : α → Prop) (p : Cluster α) : Prop :=
  ∀ r : Repository, r.Tidy →
    p.Keeps tidyTerms (fun result r' => Settles result r' ∧ ∀ a, result = .ok a → P a) r

namespace Cluster.Tidies

variable {α β : Type} {P : α → Prop} {Q : β → Prop}

theorem pure {a : α} (ha : P a) : Tidies P (Pure.pure a : Cluster α) := fun _ hr =>
  ⟨.inl hr, fun _ h => Except.ok.inj h ▸ ha⟩

/-- A result leaves the repository as it is. -/
theorem ofExcept {result : Except Error α} (h : ∀ a, result = .ok a → P a) :
    Tidies P (Plan.ofExcept result : Cluster α) := by
  intro r hr
  cases result with
  | ok a => exact ⟨.inl hr, fun _ heq => Except.ok.inj heq ▸ h a rfl⟩
  | error e => exact ⟨.inl hr, fun _ heq => by cases heq⟩

/-- An error leaves the repository as it is. -/
theorem fail (e : Error) : Tidies P (Plan.fail e : Cluster α) := fun _ hr =>
  ⟨.inl hr, fun _ h => by cases h⟩

/-- One operation after the other: in between the repository is tidy. -/
theorem seq {p : Cluster α} {f : α → Cluster β} (hp : Tidies P p) (hf : ∀ a, P a → Tidies Q (f a)) :
    Tidies Q (p >>= f) := by
  intro r hr
  refine (hp r hr).bind (fun a r' hr' => hf a (hr'.2 a rfl) r' ?_) fun f r' hr' => ?_
  · exact hr'.1.resolve_right fun h => by cases h.1
  · refine ⟨hr'.1.imp_right fun ⟨hf, hfull⟩ => ?_, fun _ h => by cases h⟩
    cases hf
    exact ⟨rfl, hfull⟩

theorem forM {γ : Type} {f : γ → Cluster Unit} {l : List γ}
    (h : ∀ c ∈ l, Tidies (fun _ => True) (f c)) : Tidies (fun _ => True) (l.forM f) := by
  induction l with
  | nil => exact pure trivial
  | cons c l ih =>
    exact (h c List.mem_cons_self).seq fun _ _ => ih fun b hb => h b (List.mem_cons_of_mem _ hb)

/-- An error that is caught leaves the repository tidy, and an overflow is not caught. -/
theorem attempt {p : Cluster α} (hp : Tidies P p) : Tidies (fun _ => True) p.attempt := by
  intro r hr
  rw [keeps_attempt]
  refine (hp r hr).mono fun result r' hr' => ⟨hr'.1.imp_right fun ⟨hresult, hfull⟩ => ?_, fun _ _ => trivial⟩
  rw [hresult]
  exact ⟨rfl, hfull⟩

/-- **An operation on the repository** that tidies does so on the node. -/
theorem access {p : Access α} (hp : Access.Tidies p) : Tidies (fun _ => True) (Cluster.access p) := by
  intro r hr
  have hkeeps := hp r hr
  clear hp hr
  unfold Cluster.access
  -- the calls are those of the operation, one by one
  induction p generalizing r with
  | done a => exact ⟨hkeeps, fun _ _ => trivial⟩
  | stop f => exact ⟨hkeeps, fun _ _ => trivial⟩
  | ask call k ih => exact ⟨hkeeps.1, fun reply r' hreply => ih reply r' (hkeeps.2 reply r' hreply)⟩

/-- A request that leaves a tidy repository tidy. -/
theorem request {request : ClusterRequest} {k : request.Reply → Cluster α}
    (howed : ∀ r, r.Tidy → tidyTerms.Owed request r)
    (hnext : ∀ r reply r', r.Tidy → tidyTerms.Answers request r reply r' → r'.Tidy ∧ Tidies P (k reply)) :
    Tidies P (Plan.ask request k : Cluster α) := fun r hr =>
  ⟨howed r hr, fun reply r' hreply => (hnext r reply r' hr hreply).2 r' (hnext r reply r' hr hreply).1⟩

/-- A warning touches nothing; that there are too many revisions is never one of them. -/
theorem warn {w : Warning} (hw : ∀ path, w ≠ .manyVersions path) :
    Tidies (fun _ => True) (Cluster.warn w) :=
  access (.of_uses (p := Access.warn w) ⟨hw, fun _ => trivial⟩)

/-- Looking at the current generation: it has names. -/
theorem current : Tidies Generation.HasNames Cluster.current :=
  .request (fun _ hr => hr) fun _ _ _ hr h => ⟨h.2 ▸ hr, .pure h.1⟩

/-- Building a generation from one that has names. -/
theorem build {db : String} {isNew : Bool} {diff : ResourceDiff} {before : Generation}
    (hbefore : before.HasNames) : Tidies Generation.HasNames (Cluster.build db isNew diff before) := by
  refine .request (fun _ hr => ⟨hr, hbefore⟩) fun r reply r' hr h => ⟨h.2 ▸ hr, ?_⟩
  cases reply with
  | ok g => exact .pure (h.1 g rfl)
  | error f => exact fun _ hr => ⟨.inl hr, fun _ h => by cases h⟩

/-- Opening a pool takes time, and what happens meanwhile leaves the repository tidy. -/
theorem openPool {unit : String} {properties : PoolProperties} :
    Tidies (fun _ => True) (Cluster.openPool unit properties) :=
  .request (fun _ hr => hr) fun _ _ _ _ h => ⟨h, .pure trivial⟩

/-- Installing a database whose schemas have names. -/
theorem installDatabase {d : Database} (hd : d.schemas.HaveNames) :
    Tidies (fun _ => True) (Cluster.installDatabase d) := by
  refine .request (fun _ hr => ⟨hr, hd⟩) fun r reply r' hr h => ⟨?_, ?_⟩
  · obtain rfl : r' = r := h
    exact hr
  · cases reply <;> exact fun _ hr => ⟨.inl hr, fun _ _ => trivial⟩

/-- Waiting takes time as well; a generation that comes has names. -/
theorem awaitGeneration {goal : Goal} {timeoutMs : Nat} :
    Tidies (fun found => ∀ g, found = some g → g.HasNames) (Cluster.awaitGeneration goal timeoutMs) :=
  .request (fun _ hr => hr) fun _ _ _ _ h => ⟨h.2, .pure h.1⟩

theorem retire {policy : DrainPolicy} {pools : List PoolId} :
    Tidies (fun _ => True) (Cluster.retire policy pools) :=
  .request (fun _ hr => hr) fun r _ r' hr h => by
    obtain rfl : r' = r := h
    exact ⟨hr, .pure trivial⟩

theorem announce {db : String} {event : DatabaseEvent} :
    Tidies (fun _ => True) (Cluster.announce db event) :=
  .request (fun _ hr => hr) fun r reply r' hr h => by
    obtain rfl : r' = r := h
    exact ⟨hr, .ofExcept fun _ _ => trivial⟩

end Cluster.Tidies

/-! ### Changes of storage units -/

namespace Switch

/-- Opening pools one after the other, and giving them up if one of them fails. -/
theorem tidies_openFrom (policy : DrainPolicy) (l : List (String × PoolProperties)) :
    ∀ opened : SortedMap PoolId, Cluster.Tidies (fun _ => True) (openFrom policy opened l) := by
  induction l with
  | nil => exact fun opened => .pure trivial
  | cons entry l ih =>
    obtain ⟨unit, properties⟩ := entry
    refine fun opened => Cluster.Tidies.openPool.seq fun reply _ => ?_
    cases reply with
    | ok pool => exact ih _
    | error e =>
      exact (Cluster.Tidies.warn fun _ h => by cases h).seq fun _ _ =>
        Cluster.Tidies.retire.seq fun _ _ => .fail e

end Switch

namespace UnitChange

variable {db : String} {before reload : Generation}

/-- **The units of a change have names.** -/
def HasNames : UnitChange → Prop
  | register units | alter units => ∀ name, units.contains name = true → Path.IsName name
  | unregister unit => Path.IsName unit

/-- Working out a change writes nothing. -/
theorem tidies_diff (policy : DrainPolicy) (r : Resource) (change : UnitChange) :
    Cluster.Tidies (fun _ => True) (change.diff policy r) := by
  refine diff_rule (motive := Cluster.Tidies _) policy change r (fun _ => .fail _) fun units make _ => ?_
  exact (Switch.tidies_openFrom policy _ _).seq fun _ _ => .pure trivial

/-- Statistics are written in any case. -/
theorem tidies_persistStatistics (db : String) (before reload : Generation) :
    Access.Tidies (persistStatistics db before reload) := by
  unfold persistStatistics
  cases reload.statistics.get? db with
  | none => exact .pure ()
  | some statistics => exact .forM fun e _ => Stored.tidies_persistStatistics _ e.2

/-- **Writing a change** leaves the repository tidy. -/
theorem tidies_persist {change : UnitChange} (hdb : Path.IsName db) (hchange : change.HasNames)
    (hbefore : before.HasNames) (hreload : reload.HasNames) :
    Access.Tidies (change.persist db before reload) := by
  have haltered : Access.Tidies (afterAlteration db before reload) :=
    (tidies_persistStatistics db before reload).seq fun _ =>
      Stored.tidies_persistReloadAltered hdb (hreload.schemas db) (hbefore.schemas db)
  have hpresent : ∀ units : SortedMap PoolProperties,
      (∀ name, units.contains name = true → Path.IsName name) →
      Access.Tidies (Stored.persistUnits db units >>= fun switches => Item.commit switches >>=
        fun _ => afterAlteration db before reload) := by
    intro units hunits
    rw [← bind_assoc]
    exact (Stored.tidies_replaceUnits hdb hunits).seq fun _ => haltered
  cases change with
  | register units => exact hpresent units hchange
  | alter units => exact hpresent units hchange
  | unregister unit =>
    -- after the unit, all schemas of the database are written
    refine (Stored.tidies_deleteUnit hdb hchange).seq fun _ => ?_
    unfold afterRemoval
    cases hd : reload.database db with
    | error e => exact .of_uses trivial
    | ok d =>
      have hschemas := hreload.database hd
      refine (Access.Tidies.forM fun x hx => ?_).seq fun _ =>
        (tidies_persistStatistics db before reload).seq fun _ =>
          Stored.tidies_persistReloadDropped hdb (hreload.schemas db) (hbefore.schemas db)
      obtain ⟨e, he, rfl⟩ := List.mem_map.1 hx
      exact Stored.tidies_alterSchemaTables hdb (hschemas.mem_entries e he).2

/-- **Applying a change** builds a generation, writes it, and installs it. -/
theorem tidies_apply {change : UnitChange} {diff : ResourceDiff} (hdb : Path.IsName db)
    (hchange : change.HasNames) (hbefore : before.HasNames) :
    Cluster.Tidies (fun _ => True) (change.apply db before diff) := by
  unfold UnitChange.apply
  refine (Cluster.Tidies.build hbefore).seq fun reload hreload => ?_
  -- the schemas that are written are those of the generation that was built
  have hdatabase : Cluster.Tidies (fun d : Database => d.schemas.HaveNames)
      (Plan.ofExcept (reload.database db)) := .ofExcept fun d hd => hreload.database hd
  refine hdatabase.seq fun d hd => ?_
  refine (Cluster.Tidies.access (tidies_persist hdb hchange hbefore hreload)).seq fun _ _ => ?_
  exact (Cluster.Tidies.installDatabase hd).seq fun _ _ => .pure trivial

end UnitChange

namespace Service

variable {db : String} (service : Service)

/-- **A change of storage units** leaves the repository tidy, successful or not. -/
theorem tidies_switchUnits (change : UnitChange) (hdb : Path.IsName db) (hchange : change.HasNames) :
    Cluster.Tidies (fun _ => True) (service.switchUnits db change) := by
  unfold switchUnits
  refine Cluster.Tidies.current.seq fun before hbefore => ?_
  have hdatabase : Cluster.Tidies (fun _ => True) (Plan.ofExcept (before.database db)) :=
    .ofExcept fun _ _ => trivial
  refine hdatabase.seq fun d _ => (change.tidies_diff service.drain d.resource).seq fun diff _ => ?_
  -- whether the change is applied or not, the repository is tidy when the pools are retired
  refine (UnitChange.tidies_apply hdb hchange hbefore).attempt.seq fun result _ => ?_
  cases result with
  | ok _ => exact .retire
  | error e =>
    exact (Cluster.Tidies.warn fun _ h => by cases h).seq fun _ _ =>
      Cluster.Tidies.retire.seq fun _ _ => .fail e

/-! ### Changes of rules -/

/-- Waiting for a reload: the generation that comes has names. -/
theorem tidies_awaitReload (db : String) (before : Generation) :
    Cluster.Tidies Generation.HasNames (service.awaitReload db before) := by
  unfold awaitReload
  refine (Cluster.Tidies.access (Stored.tidies_loadRules db)).seq fun rules _ => ?_
  refine Cluster.Tidies.awaitGeneration.seq fun found hfound => ?_
  cases found with
  | none => exact .fail _
  | some reload => exact .pure (hfound reload rfl)

end Service

namespace RuleChange

variable {db : String} {change : RuleChange}

/-- **The rule of a change has names.** -/
def HasNames : RuleChange → Prop
  | alter rule | removeItems rule => ∀ r, rule = some r → r.HasNames
  | remove rule => Path.IsName rule

/-- What a change of rules writes at first. -/
theorem tidies_write (hdb : Path.IsName db) (hchange : change.HasNames) :
    Access.Tidies (change.write db) := by
  -- an alteration writes items anew; the other two only take items away
  cases change with
  | alter rule =>
    cases rule with
    | none => exact .pure ()
    | some rule => exact Stored.tidies_replaceRule hdb (hchange rule rfl)
  | removeItems rule =>
    cases rule with
    | none => exact .pure ()
    | some rule => exact Stored.tidies_deleteRuleItems hdb (hchange rule rfl)
  | remove rule => exact Stored.tidies_deleteRule hdb hchange

/-- What a change of rules writes after its reload. -/
theorem tidies_writeReload (hdb : Path.IsName db) {reloaded current : Schemas}
    (hreloaded : reloaded.HaveNames) (hcurrent : current.HaveNames) :
    Access.Tidies (change.writeReload db reloaded current) := by
  cases change with
  | alter rule => exact Stored.tidies_persistReloadAltered hdb hreloaded hcurrent
  | removeItems rule => exact Stored.tidies_persistReloadDropped hdb hreloaded hcurrent
  | remove rule => exact Stored.tidies_persistReloadDropped hdb hreloaded hcurrent

/-- **A change of rules** leaves the repository tidy. -/
theorem tidies_run (service : Service) (hdb : Path.IsName db) (hchange : change.HasNames) :
    Cluster.Tidies (fun _ => True) (change.run service db) := by
  rcases change.run_cases service db with hrun | hrun
  · rw [hrun]
    exact .pure trivial
  · rw [hrun]
    refine Cluster.Tidies.current.seq fun before hbefore => ?_
    -- the rule is settled before the reload is waited for
    refine (Cluster.Tidies.access (tidies_write hdb hchange)).seq fun _ _ => ?_
    refine (service.tidies_awaitReload db before).seq fun reload hreload => ?_
    exact .access (tidies_writeReload hdb (hreload.schemas db) (hbefore.schemas db))

end RuleChange

/-! ### Databases and schemas -/

/-- **The other members of the cluster are told** about a database through the repository or by an
observer of the node. -/
def Service.Notifies (service : Service) : Prop := ∀ db event,
  service.notify db event = Cluster.access (Coordinator.publish db event)
    ∨ service.notify db event = Cluster.announce db event

/-- Whatever the way in which others are told, items are left alone. -/
theorem Service.Notifies.tidies_notify {service : Service} (h : service.Notifies) {db : String}
    (hdb : Path.IsName db) (event : DatabaseEvent) :
    Cluster.Tidies (fun _ => True) (service.notify db event) := by
  rcases h db event with heq | heq
  · rw [heq]
    exact .access (Stored.tidies_notify hdb event)
  · rw [heq]
    exact .announce

/-- **An operation on schemas** leaves the repository tidy. -/
theorem SchemaOperation.tidies_run {service : Service} (hservice : service.Notifies)
    {op : SchemaOperation} (h : ∀ name ∈ op.names, Path.IsName name) :
    Cluster.Tidies (fun _ => True) (op.run service) := by
  -- each of them writes to items, or to nodes above or apart from all items
  cases op with
  | createDatabase db =>
    have hdb := h db (by simp [names])
    exact (Cluster.Tidies.access (Stored.tidies_addDatabase hdb)).seq fun _ _ =>
      hservice.tidies_notify hdb .create
  | dropDatabase db =>
    have hdb := h db (by simp [names])
    exact (hservice.tidies_notify hdb .drop).seq fun _ _ =>
      .access (Stored.tidies_dropDatabase hdb)
  | createSchema db schema =>
    exact .access (Stored.tidies_addSchema (h db (by simp [names])) (h schema (by simp [names])))
  | dropSchemas db schemas =>
    have hdb := h db (by simp [names])
    exact .access (.forM fun schema hschema =>
      Stored.tidies_dropSchema hdb (h schema (by simp [names, hschema])))
  | createTable db schema table =>
    refine .access (Stored.tidies_persistTables (h db (by simp [names])) (h schema (by simp [names])) ?_)
    simpa using h table.name (by simp [names])
  | dropTable db schema table =>
    exact .access (Stored.tidies_dropTable (h db (by simp [names])) (h schema (by simp [names]))
      (h table (by simp [names])))
  | alterSchema db schema tables views droppedTables droppedViews =>
    have hdb := h db (by simp [names])
    have hschema := h schema (by simp [names])
    have htables : ∀ t ∈ tables, Path.IsName t.name := fun t ht => h _ (by grind [names])
    have hviews : ∀ v ∈ views, Path.IsName v.name := fun v hv => h _ (by grind [names])
    have hdroppedTables : ∀ t ∈ droppedTables, Path.IsName t := fun t ht => h t (by grind [names])
    have hdroppedViews : ∀ v ∈ droppedViews, Path.IsName v := fun v hv => h v (by grind [names])
    refine .access ((Stored.tidies_persistTables hdb hschema htables).seq fun _ =>
      (Stored.tidies_persistViews hdb hschema hviews).seq fun _ => ?_)
    exact (Access.Tidies.forM fun t ht => Stored.tidies_dropTable hdb hschema (hdroppedTables t ht)).seq
      fun _ => .forM fun v hv => Stored.tidies_dropView hdb hschema (hdroppedViews v hv)

/-- **Renaming a schema** leaves the repository tidy. -/
theorem Service.tidies_renameSchema {db schema newName : String} (hdb : Path.IsName db)
    (hschema : Path.IsName schema) (hnew : Path.IsName newName) :
    Cluster.Tidies (fun _ => True) (renameSchema db schema newName) := by
  unfold renameSchema
  refine Cluster.Tidies.current.seq fun g hg => ?_
  have hdatabase : Cluster.Tidies (fun d : Database => d.schemas.HaveNames)
      (Plan.ofExcept (g.database db)) := .ofExcept fun d hd => hg.database hd
  refine hdatabase.seq fun d hd => ?_
  cases hfound : d.schemas.get? schema with
  | none => exact .fail _
  | some found =>
    -- the tables and views are those of a generation, which has names
    have hnames : found.HasNames := (hd schema found hfound).2
    refine .access ?_
    dsimp only
    split
    · exact (Stored.tidies_addSchema hdb hnew).seq fun _ => Stored.tidies_dropSchema hdb hschema
    · exact (Stored.tidies_persistTables hdb hnew hnames.mem_tables).seq fun _ =>
        (Stored.tidies_persistViews hdb hnew hnames.mem_views).seq fun _ =>
          Stored.tidies_dropSchema hdb hschema

/-! ### Administrative operations -/

/-- **An operation on storage units** leaves the repository tidy. -/
theorem UnitOperation.tidies_run (service : Service) {db : String} (hdb : Path.IsName db)
    {op : UnitOperation} (h : ∀ name ∈ op.names, Path.IsName name) :
    Cluster.Tidies (fun _ => True) (op.run service db) := by
  cases op with
  | register units =>
    exact service.tidies_switchUnits (.register units) hdb fun name hname =>
      h name ((SortedMap.mem_keys_iff units).2 hname)
  | alter units =>
    exact service.tidies_switchUnits (.alter units) hdb fun name hname =>
      h name ((SortedMap.mem_keys_iff units).2 hname)
  | unregister units =>
    -- one change after the other; each leaves the repository tidy for the next
    refine (Cluster.Tidies.access (Stored.tidies_loadUnits db)).seq fun stored _ =>
      .forM fun unit hunit => ?_
    split
    · exact service.tidies_switchUnits (.unregister unit) hdb (h unit hunit)
    · exact .pure trivial

/-- **An administrative operation** on a node. -/
inductive NodeOperation where
  | onSchemas (op : SchemaOperation)
  | renameSchema (db schema newName : String)
  | onUnits (db : String) (op : UnitOperation)
  | alterSingleRule (db : String) (rules : RuleSet)
  | onRules (db : String) (change : RuleChange)
  | alterGlobalRule (rule : Rule)
  | alterProperties (properties : Properties)

namespace NodeOperation

/-- The operation as it is carried out on a node. -/
def run (service : Service) : NodeOperation → Cluster Unit
  | onSchemas op => op.run service
  | renameSchema db schema newName => Service.renameSchema db schema newName
  | onUnits db op => op.run service db
  | alterSingleRule db rules => Service.alterSingleRule db rules
  | onRules db change => change.run service db
  | alterGlobalRule rule => Service.alterGlobalRule rule
  | alterProperties properties => Service.alterProperties properties

/-- **What an operation names are names**: not empty and without `/`. -/
def HasNames : NodeOperation → Prop
  | onSchemas op => ∀ name ∈ op.names, Path.IsName name
  | renameSchema db schema newName => Path.IsName db ∧ Path.IsName schema ∧ Path.IsName newName
  | onUnits db op => Path.IsName db ∧ ∀ name ∈ op.names, Path.IsName name
  | alterSingleRule db _ => Path.IsName db
  | onRules db change => Path.IsName db ∧ change.HasNames
  | alterGlobalRule rule => Path.IsName rule.name
  | alterProperties _ => True

/-- The rule of undistributed tables has fixed names. -/
theorem hasNames_single (rule : SingleRule) : (Rule.single rule).HasNames where
  name := (by decide : Path.IsName SingleRule.ruleName)
  items item hitem := by
    have htables : Path.IsName Rule.tablesItem := by decide
    have hunit : Path.IsName Rule.defaultDataSourceItem := by decide
    rcases List.mem_cons.1 hitem with rfl | hitem
    · exact htables
    · obtain ⟨unit, -, rfl⟩ := Option.map_eq_some_iff.1 (Option.mem_toList.1 hitem)
      exact hunit

/-- **Every administrative operation** leaves the repository tidy, successful or not. -/
theorem tidies_run {service : Service} (hservice : service.Notifies) {op : NodeOperation}
    (h : op.HasNames) : Cluster.Tidies (fun _ => True) (op.run service) := by
  cases op with
  | onSchemas op => exact op.tidies_run hservice h
  | renameSchema db schema newName => exact Service.tidies_renameSchema h.1 h.2.1 h.2.2
  | onUnits db op => exact UnitOperation.tidies_run service h.1 h.2
  | alterSingleRule db rules =>
    show Cluster.Tidies _ (Service.alterSingleRule db rules)
    unfold Service.alterSingleRule
    cases rules.single? with
    | none => exact .fail _
    | some rule => exact .access (Stored.tidies_replaceRule h (hasNames_single rule))
  | onRules db change => exact RuleChange.tidies_run service h.1 h.2
  | alterGlobalRule rule => exact .access (Stored.tidies_persistGlobalRule h)
  | alterProperties properties => exact .access (Stored.tidies_persistProperties properties)

end NodeOperation

end ClusterCatalog
