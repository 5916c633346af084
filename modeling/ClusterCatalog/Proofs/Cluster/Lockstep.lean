import ClusterCatalog.Proofs.Cluster.Effect
import ClusterCatalog.Proofs.Lockstep

/-!
# Nodes that look the same to a database

An operation on the storage units of a database sees little of a node: its database in the current
generation, the statistics of the database, and the part of the repository that belongs to it. On two
nodes on which all this is the same, except that pools may have other numbers, the operation goes in
lockstep with itself (`UnitOperation.inStep_run`).

Which pools stand for each other is left open: `P` relates them. A diff, a resource and a generation
match if they are the same up to such pools.

* `ClusterRequest.Matches` — the requests of the two executions, and their replies.
* `Generation.Matching` — generations that are the same as far as one database is concerned.
-/

namespace ClusterCatalog

open Plan

variable {P : PoolId → PoolId → Prop} {db : String}

/-! ### What belongs to a database -/

/-- **A call is about a database**: its metadata or its statistics. -/
def StoreRequest.OfDatabase (db : String) (call : StoreRequest) : Prop :=
  call.Concerns (Path.database db) ∨ call.Concerns (Path.child Path.statisticsRoot db)

namespace UnitChange

/-- A call that follows a change is one of the database. -/
theorem Follows.ofDatabase {call : StoreRequest} (h : Follows db call) : call.OfDatabase db :=
  h.imp (fun h => h.mono (Path.database_covers_schemas db)) id

/-- What is about the units of a database is about the database. -/
theorem uses_ofDatabase {α : Type} {p : Access α}
    (h : p.Uses (StoreRequest.Concerns (Path.storageUnits db))) :
    p.Uses (StoreRequest.OfDatabase db) :=
  h.mono fun _ hcall => .inl (hcall.mono (Path.database_covers_storageUnits db))

/-- **Writing a change** is about its database. -/
theorem uses_persist (before reload : Generation) (change : UnitChange) :
    (change.persist db before reload).Uses (StoreRequest.OfDatabase db) := by
  -- registering and altering write the same; only a removal is different
  have hpresent : ∀ units : SortedMap PoolProperties,
      (Stored.persistUnits db units >>= fun switches => Item.commit switches >>= fun _ =>
        afterAlteration db before reload).Uses (StoreRequest.OfDatabase db) := by
    intro units
    rw [← bind_assoc]
    refine (uses_ofDatabase (Item.uses_replace fun e _ => Path.storageUnits_cover db e.1)).seq fun _ => ?_
    exact (uses_afterAlteration db before reload).mono fun _ => Follows.ofDatabase
  cases change with
  | register units => exact hpresent units
  | alter units => exact hpresent units
  | unregister unit =>
    refine (uses_ofDatabase (Access.uses_delete (Path.isAbove_child _ _))).seq fun _ => ?_
    exact (uses_afterRemoval db before reload).mono fun _ => Follows.ofDatabase

end UnitChange

/-! ### The same up to pools -/

/-- **Resources match**: the same units, with pools that stand for each other. -/
structure Resource.Matching (P : PoolId → PoolId → Prop) (r r' : Resource) : Prop where
  units : r.units = r'.units
  pools : r.pools.Matching P r'.pools

/-- **Databases match**, under the name that both of them have. -/
structure Database.Matching (P : PoolId → PoolId → Prop) (db : String) (d d' : Database) : Prop where
  name : d.name = db
  name' : d'.name = db
  resource : d.resource.Matching P d'.resource
  rules : d.rules = d'.rules
  schemas : d.schemas = d'.schemas

/-- **Generations match** as far as a database is concerned. One of them may be ahead of the other. -/
structure Generation.Matching (P : PoolId → PoolId → Prop) (db : String) (g g' : Generation) :
    Prop where
  database : Option.Rel (Database.Matching P db) (g.databases.get? db) (g'.databases.get? db)
  statistics : g.statistics.get? db = g'.statistics.get? db
  number_le : g'.number ≤ g.number

/-- **Diffs match**. -/
structure ResourceDiff.Matching (P : PoolId → PoolId → Prop) (d d' : ResourceDiff) : Prop where
  opened : d.opened.Matching P d'.opened
  stale : d.stale.Matching P d'.stale
  merged : d.merged = d'.merged

namespace ResourceDiff

variable {d d' : ResourceDiff} {r r' : Resource}

/-- The live pools of the same units match. -/
theorem matching_poolsOf (h : r.Matching P r') (units : List String) :
    (poolsOf r units).Matching P (poolsOf r' units) := by
  refine SortedMap.Matching.ofList ?_
  rw [h.units]
  -- by induction on the names: a unit has a pool on both sides or on neither
  induction units with
  | nil => exact .nil
  | cons name units ih =>
    cases hunit : r'.units.get? name with
    | none => simpa [hunit] using ih
    | some unit =>
      have hpool := h.pools unit.node.name
      generalize hp : r.pools.get? unit.node.name = pool,
        hp' : r'.pools.get? unit.node.name = pool' at hpool
      cases hpool with
      | none => simpa [hunit, hp, hp'] using ih
      | some hpools =>
        simp only [List.filterMap_cons, hunit, hp, hp', Option.bind_eq_bind, Option.bind_some]
        exact .cons ⟨rfl, hpools⟩ ih

/-- Registering the same units with matching pools is the same diff. -/
theorem Matching.register (h : r.Matching P r') (units : SortedMap PoolProperties)
    {opened opened' : SortedMap PoolId} (hopened : opened.Matching P opened') :
    (ResourceDiff.register r units opened).Matching P (.register r' units opened') where
  opened := hopened
  stale := .empty
  merged := by
    show r.properties.overlay units = r'.properties.overlay units
    rw [Resource.properties, Resource.properties, h.units]

/-- Altering the same units with matching pools is the same diff, and the pools that it takes out match.
-/
theorem Matching.alter (h : r.Matching P r') (units : SortedMap PoolProperties)
    {opened opened' : SortedMap PoolId} (hopened : opened.Matching P opened') :
    (ResourceDiff.alter r units opened).Matching P (.alter r' units opened') where
  opened := hopened
  stale := matching_poolsOf h units.keys
  merged := by
    show r.properties.overlay units = r'.properties.overlay units
    rw [Resource.properties, Resource.properties, h.units]

/-- Removing the same units is the same diff. -/
theorem Matching.unregister (h : r.Matching P r') (names : List String) :
    (ResourceDiff.unregister r names).Matching P (.unregister r' names) := by
  -- which units are removed depends on the units alone, and these are the same
  have hpresent : present r names = present r' names := by rw [present, present, h.units]
  refine ⟨.empty, ?_, ?_⟩
  · show (poolsOf r (present r names)).Matching P (poolsOf r' (present r' names))
    rw [hpresent]
    exact matching_poolsOf h _
  · show (r.properties.filter fun name _ => !(present r names).contains name)
      = r'.properties.filter fun name _ => !(present r' names).contains name
    rw [Resource.properties, Resource.properties, h.units, hpresent]

/-- **The changed resources match.** -/
theorem Matching.applyTo (h : d.Matching P d') (hr : r.Matching P r') :
    (d.applyTo r).Matching P (d'.applyTo r') where
  units := congrArg Resource.unitsOf h.merged
  pools := by
    -- pools are filtered by their keys, which both sides have in common
    have hstale : (fun (node : String) (_ : PoolId) => !d.stale.contains node)
        = fun node _ => !d'.stale.contains node :=
      funext fun node => by rw [h.stale.contains node]
    show ((r.pools.filter fun node _ => !d.stale.contains node).overlay d.opened).Matching P _
    rw [hstale]
    exact (hr.pools.filter fun node => !d'.stale.contains node).overlay h.opened

end ResourceDiff

namespace Generation.Matching

variable {g g' : Generation} {d d' : Database}

/-- The schemas of the database are the same. -/
theorem schemas_eq (h : g.Matching P db g') : g.schemas db = g'.schemas db := by
  have hdatabase := h.database
  unfold Generation.schemas
  generalize g.databases.get? db = found, g'.databases.get? db = found' at hdatabase ⊢
  cases hdatabase with
  | none => rfl
  | some hd => exact hd.schemas

/-- The database is found on both sides or on neither. -/
theorem database_alike (h : g.Matching P db g') :
    Alike (Database.Matching P db) (g.database db) (g'.database db) := by
  have hdatabase := h.database
  unfold Generation.database
  generalize g.databases.get? db = found, g'.databases.get? db = found' at hdatabase ⊢
  cases hdatabase with
  | none => exact .error _
  | some hd => exact .ok hd

/-- **Putting the database in** keeps generations matching, unless the number of the one ahead
overflows. -/
theorem succeededBy (h : g.Matching P db g') (hd : d.Matching P db d') :
    g.succeededBy d = .error .overflow
      ∨ Alike (Generation.Matching P db) (g.succeededBy d) (g'.succeededBy d') := by
  have hnumber := h.number_le
  -- the two generations that are next, whether or not there is a number left for them
  have hnext : ({ g.withDatabase d with number := g.number + 1 } : Generation).Matching P db
      { g'.withDatabase d' with number := g'.number + 1 } := by
    refine ⟨?_, h.statistics, Nat.succ_le_succ hnumber⟩
    show Option.Rel _ ((g.databases.insert d.name d).get? db) ((g'.databases.insert d'.name d').get? db)
    rw [hd.name, hd.name', SortedMap.get?_insert_self, SortedMap.get?_insert_self]
    exact .some hd
  unfold Generation.succeededBy successor
  -- the first node has the greater number, so where it has one left the other node has one too
  by_cases hlt : g.number < maxNumber
  · have hlt' : g'.number < maxNumber := Nat.lt_of_le_of_lt hnumber hlt
    refine .inr ?_
    rw [if_pos (show (g.withDatabase d).number < maxNumber from hlt),
      if_pos (show (g'.withDatabase d').number < maxNumber from hlt')]
    exact .ok hnext
  · exact .inl (if_neg hlt)

/-- **Building** from matching diffs yields matching generations. -/
theorem rebuild {diff diff' : ResourceDiff} (h : g.Matching P db g') (hdiff : diff.Matching P diff') :
    diff.rebuild db false g = .error .overflow
      ∨ Alike (Generation.Matching P db) (diff.rebuild db false g) (diff'.rebuild db false g') := by
  have hdatabase := h.database
  unfold ResourceDiff.rebuild
  generalize hfound : g.databases.get? db = found, hfound' : g'.databases.get? db = found'
    at hdatabase ⊢
  -- without the database both fail alike; otherwise the first run may have no version left
  cases hdatabase with
  | none => exact .inr (.error _)
  | some hd =>
    exact h.succeededBy ⟨hd.name, hd.name', hdiff.applyTo hd.resource, hd.rules, hd.schemas⟩

end Generation.Matching

/-! ### The coupling -/

/-- **The requests that match** when an operation on a database is executed twice, and the replies to
them. -/
inductive ClusterRequest.Matches (P : PoolId → PoolId → Prop) (db : String) :
    (r r' : ClusterRequest) → (r.Reply → r'.Reply → Prop) → Prop
  | store {call : StoreRequest} (h : call.OfDatabase db) : Matches P db (.store call) (.store call) Eq
  | current : Matches P db .current .current (Generation.Matching P db)
  | build {diff diff' : ResourceDiff} {before before' : Generation} (hdiff : diff.Matching P diff')
    (hbefore : before.Matching P db before') :
    Matches P db (.build db false diff before) (.build db false diff' before')
      (Alike (Generation.Matching P db))
  | openPool (unit : String) (properties : PoolProperties) :
    Matches P db (.openPool unit properties) (.openPool unit properties) (Alike P)
  | installDatabase {d d' : Database} (h : d.Matching P db d') :
    Matches P db (.installDatabase d) (.installDatabase d') (Alike fun _ _ => True)
  | retire (policy : DrainPolicy) (pools pools' : List PoolId) :
    Matches P db (.retire policy pools) (.retire policy pools') fun _ _ => True

/-- The replies that tell that a number of a generation overflows. -/
def ClusterRequest.Overflows : (r : ClusterRequest) → r.Reply → Prop
  | .build .., reply => reply = .error .overflow
  | .installDatabase _, reply => reply = .error .overflow
  | _, _ => False

/-- **Two executions of an operation on a database.** -/
def sameDatabase (P : PoolId → PoolId → Prop) (db : String) : Coupling clusterInterface where
  Matches := ClusterRequest.Matches P db
  Overflows := ClusterRequest.Overflows

namespace Cluster

/-- An operation on the repository that is about the database. -/
theorem inStep_access {α : Type} {p : Access α} (h : p.Uses (StoreRequest.OfDatabase db)) :
    InStep (sameDatabase P db) Eq (access p) (access p) := by
  unfold access
  induction p with
  | done a => exact .done rfl
  | stop f => exact .stop f
  | ask call k ih =>
    -- both ask the repository the same, and are given the same reply
    refine .ask (.store h.1) ?_ fun _ h => h.elim
    rintro reply _ rfl
    exact ih reply (h.2 reply)

/-- A warning is the same on both sides. -/
theorem inStep_warn (w : Warning) : InStep (sameDatabase P db) Eq (warn w) (warn w) :=
  inStep_access ⟨.inl trivial, fun _ => trivial⟩

/-- The current generations match as far as the database goes. -/
theorem inStep_current :
    InStep (sameDatabase P db) (Generation.Matching P db) current current :=
  .ask .current (fun _ _ h => .done h) fun _ h => h.elim

/-- Matching diffs are built into matching generations. -/
theorem inStep_build {diff diff' : ResourceDiff} {before before' : Generation}
    (hdiff : diff.Matching P diff') (hbefore : before.Matching P db before') :
    InStep (sameDatabase P db) (Generation.Matching P db) (build db false diff before)
      (build db false diff' before') := by
  refine .ask (.build hdiff hbefore) (fun _ _ h => .ofResult h) ?_
  rintro _ rfl
  rfl

/-- The same pool is opened on both sides, under numbers of their own. -/
theorem inStep_openPool (unit : String) (properties : PoolProperties) :
    InStep (sameDatabase P db) (Alike P) (openPool unit properties) (openPool unit properties) :=
  .ask (.openPool unit properties) (fun _ _ h => .done h) fun _ h => h.elim

/-- A matching database is installed on both sides. -/
theorem inStep_installDatabase {d d' : Database} (h : d.Matching P db d') :
    InStep (sameDatabase P db) (fun _ _ => True) (installDatabase d) (installDatabase d') := by
  refine .ask (.installDatabase h) (fun _ _ h => .ofResult h) ?_
  rintro _ rfl
  rfl

/-- Pools are handed over on both sides; which ones is not compared. -/
theorem inStep_retire (policy : DrainPolicy) (pools pools' : List PoolId) :
    InStep (sameDatabase P db) Eq (retire policy pools) (retire policy pools') :=
  .ask (.retire policy pools pools') (fun _ _ _ => .done rfl) fun _ h => h.elim

end Cluster

/-! ### A change in lockstep with itself -/

namespace Switch

variable {policy : DrainPolicy} {r r' : Resource}

/-- **Opening pools** opens pools that stand for each other. -/
theorem inStep_openFrom (l : List (String × PoolProperties)) {opened opened' : SortedMap PoolId}
    (h : opened.Matching P opened') :
    InStep (sameDatabase P db) (SortedMap.Matching P) (openFrom policy opened l)
      (openFrom policy opened' l) := by
  induction l generalizing opened opened' with
  | nil => exact .done h
  | cons e l ih =>
    unfold openFrom
    refine (Cluster.inStep_openPool e.1 e.2).bind fun reply reply' hreply => ?_
    -- a pool was opened on both sides, or opening it has failed on both
    cases hreply with
    | ok hpool => exact ih (h.insert e.1 hpool)
    | error e =>
      refine (Cluster.inStep_warn _).bind fun _ _ _ => ?_
      refine (Cluster.inStep_retire policy _ _).bind fun _ _ _ => ?_
      exact .stop (.error e)

/-- Pools for the same units are opened on both sides. -/
theorem inStep_openAll (units : SortedMap PoolProperties) :
    InStep (sameDatabase P db) (SortedMap.Matching P) (openAll policy units) (openAll policy units) :=
  inStep_openFrom units.entries .empty

end Switch

namespace UnitChange

variable {policy : DrainPolicy} {change : UnitChange}

/-- **Working out a change** yields diffs that match. -/
theorem inStep_diff {r r' : Resource} (h : r.Matching P r') :
    InStep (sameDatabase P db) (ResourceDiff.Matching P) (change.diff policy r)
      (change.diff policy r') := by
  cases change with
  | register units =>
    show InStep _ _ (Switch.register policy r units) (Switch.register policy r' units)
    unfold Switch.register
    -- which units are registered already is the same on both sides, so both refuse or both go on
    rw [h.units]
    dsimp only
    split
    · exact .stop _
    · refine (Switch.inStep_openAll units).bind fun opened opened' hopened => ?_
      exact .done (.register h units hopened)
  | alter units =>
    refine (Switch.inStep_openAll units).bind fun opened opened' hopened => ?_
    exact .done (.alter h units hopened)
  | unregister unit => exact .done (.unregister h [unit])

/-- What is written depends on the database only. -/
theorem persist_congr {before before' reload reload' : Generation}
    (hbefore : before.Matching P db before') (hreload : reload.Matching P db reload') :
    change.persist db before reload = change.persist db before' reload' := by
  -- of the generations, only the statistics and the schemas of the database are written
  have hstatistics : persistStatistics db before reload = persistStatistics db before' reload' := by
    unfold persistStatistics
    rw [hreload.statistics, hbefore.schemas_eq]
  have haltered : afterAlteration db before reload = afterAlteration db before' reload' := by
    unfold afterAlteration
    rw [hstatistics, hreload.schemas_eq, hbefore.schemas_eq]
  have hremoved : afterRemoval db before reload = afterRemoval db before' reload' := by
    have hdatabase := hreload.database_alike
    unfold afterRemoval
    rw [hstatistics, hreload.schemas_eq, hbefore.schemas_eq]
    generalize reload.database db = found, reload'.database db = found' at hdatabase ⊢
    cases hdatabase with
    | error e => rfl
    | @ok d d' hd =>
      show (d.schemas.values.forM (Stored.alterSchemaTables db) >>= _ : Access Unit)
        = (d'.schemas.values.forM (Stored.alterSchemaTables db) >>= _ : Access Unit)
      rw [hd.schemas]
  cases change with
  | register units =>
    show (Stored.persistUnits db units >>= _) = (Stored.persistUnits db units >>= _)
    rw [haltered]
  | alter units =>
    show (Stored.persistUnits db units >>= _) = (Stored.persistUnits db units >>= _)
    rw [haltered]
  | unregister unit =>
    show (Stored.deleteUnit db unit >>= _) = (Stored.deleteUnit db unit >>= _)
    rw [hremoved]

/-- **Applying a change** installs databases that match. -/
theorem inStep_apply {diff diff' : ResourceDiff} {before before' : Generation}
    (hdiff : diff.Matching P diff') (hbefore : before.Matching P db before') :
    InStep (sameDatabase P db) Eq (change.apply db before diff) (change.apply db before' diff') := by
  unfold UnitChange.apply
  refine (Cluster.inStep_build hdiff hbefore).bind fun reload reload' hreload => ?_
  refine (InStep.ofExcept hreload.database_alike).bind fun d d' hd => ?_
  rw [persist_congr hbefore hreload]
  refine (Cluster.inStep_access (uses_persist before' reload' change)).bind fun _ _ _ => ?_
  exact (Cluster.inStep_installDatabase hd).bind fun _ _ _ => .done rfl

end UnitChange

/-- **A change of storage units** goes in lockstep with itself. -/
theorem Service.inStep_switchUnits (service : Service) (change : UnitChange) :
    InStep (sameDatabase P db) Eq (service.switchUnits db change) (service.switchUnits db change) := by
  unfold Service.switchUnits
  refine Cluster.inStep_current.bind fun before before' hbefore => ?_
  refine (InStep.ofExcept hbefore.database_alike).bind fun d d' hd => ?_
  refine (UnitChange.inStep_diff hd.resource).bind fun diff diff' hdiff => ?_
  refine (UnitChange.inStep_apply hdiff hbefore).attempt.bind fun result result' hresult => ?_
  -- the change went through on both sides, or on neither, with one error
  cases hresult with
  | ok h => exact Cluster.inStep_retire service.drain _ _
  | error e =>
    refine (Cluster.inStep_warn _).bind fun _ _ _ => ?_
    refine (Cluster.inStep_retire service.drain _ _).bind fun _ _ _ => ?_
    exact .stop (.error e)

/-- **An operation on the storage units of a database** goes in lockstep with itself. -/
theorem UnitOperation.inStep_run (P : PoolId → PoolId → Prop) (service : Service) (db : String)
    (op : UnitOperation) :
    InStep (sameDatabase P db) Eq (op.run service db) (op.run service db) := by
  cases op with
  | register units => exact service.inStep_switchUnits (.register units)
  | alter units => exact service.inStep_switchUnits (.alter units)
  | unregister units =>
    show InStep _ _ (service.unregisterUnits db units) (service.unregisterUnits db units)
    unfold Service.unregisterUnits
    refine (Cluster.inStep_access (UnitChange.uses_ofDatabase (Stored.uses_loadUnits db))).bind ?_
    rintro stored _ rfl
    -- the units that are stored are the same, so the loop passes over the same ones
    refine InStep.forM fun unit _ => ?_
    split
    · exact service.inStep_switchUnits (.unregister unit)
    · exact .done rfl

end ClusterCatalog
