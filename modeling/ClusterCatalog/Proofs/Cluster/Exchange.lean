import Mathlib.Data.Multiset.OrderedMonoid
import Mathlib.Algebra.Order.Sub.Basic
import ClusterCatalog.Cluster.UnitChange
import ClusterCatalog.Proofs.OwnNames
import ClusterCatalog.Proofs.Plan

/-!
# The exchange of pools in a change of storage units

A change of storage units opens pools, puts them into a database in exchange for others, and hands
the others over. `Holding` is what such a change sees of the node: the pools that it holds itself,
and its database in the current generation. `unitTerms` are the terms on which its requests are
made. Whoever retires pools must hold them, and whoever installs a database may put into it only
pools that it holds or that are in the database already.

* `ResourceDiff.Exchanges` — what a diff puts in and takes out is balanced, and every pool stays with
  a unit.
* `Service.keeps_switchUnits_of_stages` — the stages of a change, on any terms.
* `UnitOperation.keeps_run` — a whole operation makes its requests on these terms, whatever fails,
  and holds no pool when it is over, unless a number overflows.
-/

namespace ClusterCatalog

/-! ### Pools of a database -/

/-- The pools of a map, each as often as it occurs. -/
def poolBag (m : SortedMap PoolId) : Multiset PoolId := m.total fun pool => {pool}

theorem poolBag_eq (m : SortedMap PoolId) : poolBag m = (m.values : Multiset PoolId) := by
  rw [poolBag, SortedMap.total_eq_sum_values]
  induction m.values with
  | nil => rfl
  | cons pool pools ih => rw [List.map_cons, List.sum_cons, ih, Multiset.singleton_add]; rfl

/-- **The pools of a database fit its units**: each is the pool of a unit, and units stand under
their own names. -/
structure Resource.Fits (r : Resource) : Prop where
  named : r.SelfNamed
  covered : ∀ node, r.pools.contains node = true → r.units.contains node = true

theorem Resource.fits_unitsOf {pools : SortedMap PoolId} {properties : SortedMap PoolProperties}
    (h : ∀ node, pools.contains node = true → properties.contains node = true) :
    Resource.Fits ⟨pools, Resource.unitsOf properties⟩ where
  named := selfNamed_unitsOf pools properties
  covered node hnode := by
    show (properties.map StorageUnit.mk).contains node = true
    rw [SortedMap.contains_map]
    exact h node hnode

namespace ResourceDiff

variable {d : ResourceDiff} {r : Resource} {units : SortedMap PoolProperties}
  {opened : SortedMap PoolId}

/-- **A diff exchanges pools**: what it puts in has been opened for it or was there, and what it
takes out is stale. -/
structure Exchanges (d : ResourceDiff) (r : Resource) : Prop where
  balanced : poolBag (d.applyTo r).pools + poolBag d.stale = poolBag r.pools + poolBag d.opened
  fits : (d.applyTo r).Fits

/-- A diff whose stale pools are live, and include those of the nodes that get another pool, is
balanced. -/
theorem balanced_of_stale (hstale : ∀ node pool, d.stale.get? node = some pool →
      r.pools.get? node = some pool)
    (hopened : ∀ node, d.opened.contains node = true → r.pools.contains node = true →
      d.stale.contains node = true) :
    poolBag (d.applyTo r).pools + poolBag d.stale = poolBag r.pools + poolBag d.opened := by
  -- what the filter drops are the stale pools, and nothing that is kept is overlaid
  have hsame : (r.pools.filter fun node _ => !!d.stale.contains node) = d.stale := by
    refine SortedMap.ext fun node => ?_
    rw [SortedMap.get?_filter, Bool.not_not]
    cases hget : d.stale.get? node with
    | none =>
      have hnot : d.stale.contains node = false := by rw [SortedMap.contains, hget]; rfl
      cases r.pools.get? node <;> simp [hnot, Option.filter]
    | some pool =>
      have hcontains : d.stale.contains node = true := by rw [SortedMap.contains, hget]; rfl
      rw [hstale node pool hget]
      simp [hcontains, Option.filter]
  have hdisjoint : ∀ node, d.opened.contains node = true →
      (r.pools.filter fun node _ => !d.stale.contains node).get? node = none := by
    intro node hnode
    rw [SortedMap.get?_filter]
    cases hpool : r.pools.get? node with
    | none => rfl
    | some pool =>
      have hlive : r.pools.contains node = true := by rw [SortedMap.contains, hpool]; rfl
      simp [hopened node hnode hlive, Option.filter]
  have hsplit := SortedMap.total_filter_add (fun pool : PoolId => ({pool} : Multiset PoolId))
    r.pools fun node _ => !d.stale.contains node
  rw [hsame] at hsplit
  have hover := SortedMap.total_overlay (fun pool : PoolId => ({pool} : Multiset PoolId)) hdisjoint
  unfold poolBag
  rw [← hsplit]
  show ((r.pools.filter fun node _ => !d.stale.contains node).overlay d.opened).total _ + _ = _
  rw [hover, add_right_comm]

theorem properties_contains (r : Resource) (name : String) :
    r.properties.contains name = r.units.contains name := SortedMap.contains_map _ _ _

/-- After a change the pools fit the units if each pool that stays or is put in has a unit that
stays. -/
theorem fits_of_merged
    (h : ∀ node, (d.applyTo r).pools.contains node = true → d.merged.contains node = true) :
    (d.applyTo r).Fits := Resource.fits_unitsOf h

/-- A pool stays, or is put in. -/
theorem contains_of_applyTo {node : String} (h : (d.applyTo r).pools.contains node = true) :
    d.opened.contains node = true
      ∨ r.pools.contains node = true ∧ d.stale.contains node = false := by
  change ((r.pools.filter fun node _ => !d.stale.contains node).overlay d.opened).contains node = true
    at h
  rw [SortedMap.contains_overlay, Bool.or_eq_true] at h
  -- what was not just opened was there before, and has not been filtered away as stale
  refine h.imp_right fun h => ?_
  rw [SortedMap.contains, SortedMap.get?_filter] at h
  cases hpool : r.pools.get? node with
  | none => rw [hpool] at h; cases h
  | some pool =>
    rw [hpool] at h
    cases hstale : d.stale.contains node with
    | false => exact ⟨by rw [SortedMap.contains, hpool]; rfl, rfl⟩
    | true => simp [hstale, Option.filter] at h

/-! ### The pools of units -/

/-- What is taken out by the names of units is a pool that was there, under the name of its unit. -/
theorem mem_poolsOf {names : List String} {node : String} {pool : PoolId}
    (h : (poolsOf r names).get? node = some pool) :
    r.pools.get? node = some pool ∧ ∃ name ∈ names, ∃ u, r.units.get? name = some u ∧ u.name = node := by
  obtain ⟨name, hname, hentry⟩ := List.mem_filterMap.1 (SortedMap.mem_of_get?_ofList h)
  -- a name without unit, or a unit without pool, contributes nothing
  cases hunit : r.units.get? name with
  | none => rw [hunit] at hentry; cases hentry
  | some u =>
    rw [hunit] at hentry
    cases hpool : r.pools.get? u.node.name with
    | none => simp [hpool] at hentry
    | some p =>
      simp only [Option.bind_eq_bind, Option.bind_some, hpool, Option.some.injEq,
        Prod.mk.injEq] at hentry
      obtain ⟨rfl, rfl⟩ := hentry
      exact ⟨hpool, name, hname, u, hunit, rfl⟩

/-- The pool of a named unit is among the pools of the names. -/
theorem poolsOf_contains (hfits : r.Fits) {names : List String} {node : String}
    (hnode : node ∈ names) (hpool : r.pools.contains node = true) :
    (poolsOf r names).contains node = true := by
  obtain ⟨pool, hget⟩ := SortedMap.contains_iff.1 hpool
  obtain ⟨u, hu⟩ := SortedMap.contains_iff.1 (hfits.covered node hpool)
  have hname : u.node.name = node := hfits.named node u hu
  refine SortedMap.contains_ofList.2 ⟨pool, List.mem_filterMap.2 ⟨node, hnode, ?_⟩⟩
  simp [hu, hname, hget]

theorem mem_present_iff {names : List String} {name : String} :
    name ∈ present r names ↔ r.units.contains name = true ∧ name ∈ names := by
  rw [present, List.mem_filter, SortedMap.mem_keys_iff, List.contains_iff_mem]

/-! ### The three changes -/

/-- Registering takes nothing out, because none of the names was taken. -/
theorem register_exchanges (hfits : r.Fits)
    (hnew : ∀ name, units.contains name = true → r.units.contains name = false)
    (hopened : ∀ node, opened.contains node = units.contains node) :
    (register r units opened).Exchanges r where
  balanced := by
    -- nothing is stale, so no pool may stand where one is put in
    refine balanced_of_stale (fun _ _ h => by cases h) fun node hnode hpool => ?_
    have hunit := hfits.covered node hpool
    rw [hnew node (hopened node ▸ hnode)] at hunit
    cases hunit
  fits := by
    refine fits_of_merged fun node hnode => ?_
    show (r.properties.overlay units).contains node = true
    rw [SortedMap.contains_overlay, Bool.or_eq_true, properties_contains]
    exact (contains_of_applyTo hnode).imp (fun h => hopened node ▸ h) fun h => hfits.covered node h.1

/-- Altering takes out exactly the pools of the units that it opens again. -/
theorem alter_exchanges (hfits : r.Fits)
    (hopened : ∀ node, opened.contains node = units.contains node) :
    (alter r units opened).Exchanges r where
  balanced := by
    refine balanced_of_stale (fun _ _ h => (mem_poolsOf h).1) fun node hnode hpool => ?_
    exact poolsOf_contains hfits ((SortedMap.mem_keys_iff units).2 (hopened node ▸ hnode)) hpool
  fits := by
    refine fits_of_merged fun node hnode => ?_
    show (r.properties.overlay units).contains node = true
    rw [SortedMap.contains_overlay, Bool.or_eq_true, properties_contains]
    exact (contains_of_applyTo hnode).imp (fun h => hopened node ▸ h) fun h => hfits.covered node h.1

/-- Removing opens nothing and takes out the pools of the units that go. -/
theorem unregister_exchanges (hfits : r.Fits) (names : List String) :
    (unregister r names).Exchanges r where
  balanced := by
    refine balanced_of_stale (fun _ _ h => (mem_poolsOf h).1) fun _ h _ => ?_
    cases h
  fits := by
    refine fits_of_merged fun node hnode => ?_
    rcases contains_of_applyTo hnode with h | ⟨hpool, hstale⟩
    · cases h
    -- a pool that is not stale is that of a unit that is not removed
    · have hunit := hfits.covered node hpool
      have habsent : node ∉ present r names := by
        intro hmem
        have hcontains := poolsOf_contains hfits hmem hpool
        rw [show (unregister r names).stale = poolsOf r (present r names) from rfl, hcontains]
          at hstale
        cases hstale
      show (r.properties.filter fun name _ => !(present r names).contains name).contains node = true
      rw [← properties_contains] at hunit
      obtain ⟨properties, hproperties⟩ := SortedMap.contains_iff.1 hunit
      rw [SortedMap.contains, SortedMap.get?_filter, hproperties]
      simp [Option.filter, habsent]

end ResourceDiff

/-! ### What a change sees of the node -/

/-- **The holding of a change**: its own pools, and its database in the current generation. -/
structure Holding where
  /-- The pools that were opened for the change and are not installed, or that were replaced by it
  and are not handed over. -/
  held : Multiset PoolId
  database : Option Database

namespace Holding

/-- The pools of the database. -/
def live (s : Holding) : Multiset PoolId := s.database.elim 0 fun d => poolBag d.resource.pools

/-- **No change is going on** in the database: no pool is held. -/
def Idle (db : String) (s : Holding) : Prop :=
  s.held = 0 ∧ ∀ d, s.database = some d → d.name = db ∧ d.resource.Fits

/-- How an operation ends: idle, unless a number overflowed. -/
def Settled {α : Type} (db : String) : Except Failure α → Holding → Prop
  | .error .overflow, _ => True
  | _, s => s.Idle db

theorem Idle.settled {α : Type} {db : String} {s : Holding} (h : s.Idle db)
    (r : Except Failure α) : Settled db r s := by
  rcases r with (_ | _) | _
  · exact h
  · trivial
  · exact h

end Holding

/-- **The terms of a change of the storage units of a database.** Any request can fail; between two
requests nobody else touches the database. -/
def unitTerms (db : String) : Terms clusterInterface Holding where
  Owed
    | .installDatabase d, s =>
      d.name = db ∧ d.resource.Fits ∧ poolBag d.resource.pools ≤ s.held + s.live
    | .retire _ pools, s => (pools : Multiset PoolId) ≤ s.held
    | _, _ => True
  Answers
    | .current, s, g, s' => g.databases.get? db = s.database ∧ s' = s
    | .build name isNew diff before, s, reply, s' =>
      (reply = diff.rebuild name isNew before ∨ ∃ e, reply = .error (.error e)) ∧ s' = s
    | .openPool .., s, .ok pool, s' => s' = { s with held := pool ::ₘ s.held }
    | .installDatabase d, s, .ok _, s' =>
      s' = ⟨s.held + s.live - poolBag d.resource.pools, some d⟩
    | .installDatabase _, s, .error f, s' => f = .overflow ∧ s' = s
    | .retire _ pools, s, _, s' => s' = { s with held := s.held - (pools : Multiset PoolId) }
    | _, s, _, s' => s' = s

namespace Cluster

open Plan

variable {α : Type} {db : String} {s : Holding}

/-! ### One law for each request -/

/-- Calls of the repository move no pool. -/
theorem keeps_access {post : Except Failure α → Holding → Prop} {p : Access α}
    (h : ∀ r, post r s) : (access p).Keeps (unitTerms db) post s := by
  unfold access
  induction p with
  | done a => exact h _
  | stop f => exact h _
  | ask r k ih =>
    refine ⟨trivial, ?_⟩
    rintro reply s' rfl
    exact ih reply

theorem keeps_warn {post : Except Failure Unit → Holding → Prop} {w : Warning}
    (h : post (.ok ()) s) : (warn w).Keeps (unitTerms db) post s := by
  refine ⟨trivial, ?_⟩
  rintro reply s' rfl
  exact h

theorem keeps_current {post : Except Failure Generation → Holding → Prop}
    (h : ∀ g : Generation, g.databases.get? db = s.database → post (.ok g) s) :
    current.Keeps (unitTerms db) post s := by
  refine ⟨trivial, ?_⟩
  rintro g s' ⟨hg, rfl⟩
  exact h g hg

theorem keeps_build {post : Except Failure Generation → Holding → Prop} {name : String}
    {isNew : Bool} {diff : ResourceDiff} {before : Generation}
    (h : post (diff.rebuild name isNew before) s) (herror : ∀ e, post (.error (.error e)) s) :
    (build name isNew diff before).Keeps (unitTerms db) post s := by
  refine ⟨trivial, ?_⟩
  rintro reply s' ⟨rfl | ⟨e, rfl⟩, rfl⟩
  · exact keeps_ofResult.2 h
  · exact herror e

/-- A pool that was opened is in hand; if opening fails there is none. -/
theorem keeps_openPool {post : Except Failure (Except Error PoolId) → Holding → Prop}
    {unit : String} {properties : PoolProperties}
    (hok : ∀ pool, post (.ok (.ok pool)) { s with held := pool ::ₘ s.held })
    (herror : ∀ e, post (.ok (.error e)) s) :
    (openPool unit properties).Keeps (unitTerms db) post s := by
  refine ⟨trivial, fun reply s' hs' => ?_⟩
  cases reply with
  | error e =>
    obtain rfl : s' = s := hs'
    exact herror e
  | ok pool =>
    obtain rfl : s' = { s with held := pool ::ₘ s.held } := hs'
    exact hok pool

/-- Installing puts the pools of the database in force and leaves those in hand that it replaces. A
failed installation leaves all as it was. -/
theorem keeps_installDatabase {post : Except Failure Generation → Holding → Prop} {d : Database}
    (hname : d.name = db) (hfits : d.resource.Fits)
    (hpools : poolBag d.resource.pools ≤ s.held + s.live)
    (hok : ∀ g, post (.ok g) ⟨s.held + s.live - poolBag d.resource.pools, some d⟩)
    (herror : post (.error .overflow) s) :
    (installDatabase d).Keeps (unitTerms db) post s := by
  refine ⟨⟨hname, hfits, hpools⟩, fun reply s' hs' => ?_⟩
  cases reply with
  | error f =>
    obtain ⟨rfl, rfl⟩ : f = .overflow ∧ s' = s := hs'
    exact herror
  | ok g =>
    obtain rfl : s' = ⟨s.held + s.live - poolBag d.resource.pools, some d⟩ := hs'
    exact hok g

theorem keeps_retire {post : Except Failure Unit → Holding → Prop} {policy : DrainPolicy}
    {pools : List PoolId} (hpools : (pools : Multiset PoolId) ≤ s.held)
    (h : post (.ok ()) { s with held := s.held - (pools : Multiset PoolId) }) :
    (retire policy pools).Keeps (unitTerms db) post s := by
  refine ⟨hpools, ?_⟩
  rintro reply s' rfl
  exact h

end Cluster

/-! ### Opening pools -/

/-- **Requests that only deal with pools**, and warnings. -/
def ClusterRequest.IsPassive : ClusterRequest → Prop
  | .store (.warn _) => True
  | .openPool .. => True
  | .retire .. => True
  | _ => False

namespace Switch

open Plan

variable {db : String} {s : Holding} {policy : DrainPolicy}

/-- Pools that are opened for units, if all can be, stand under the names of the units. -/
theorem openFrom_contains (l : List (String × PoolProperties)) (opened : SortedMap PoolId) :
    (openFrom policy opened l).Keeps (.any ClusterRequest.IsPassive) (fun r _ =>
      ∀ all, r = .ok all →
        ∀ node, all.contains node = (opened.contains node || l.any fun e => e.1 == node)) () := by
  induction l generalizing opened with
  | nil =>
    rintro all h node
    cases h
    exact (Bool.or_false _).symm
  | cons e l ih =>
    obtain ⟨unit, properties⟩ := e
    unfold openFrom
    rw [keeps_bind]
    refine ⟨trivial, fun reply _ _ => ?_⟩
    cases reply with
    -- the pools opened so far are given up, and there is no map of pools to speak of
    | error e => exact ⟨trivial, fun _ _ _ => ⟨trivial, fun _ _ _ _ h => by cases h⟩⟩
    | ok pool =>
      -- the pool just opened stands under its unit, and the rest is by induction
      refine (ih (opened.insert unit pool)).mono fun r _ h all hall node => ?_
      rw [h all hall node, List.any_cons, SortedMap.contains, SortedMap.get?_insert]
      by_cases hnode : node = unit
      · subst hnode
        simp
      · rw [if_neg hnode, beq_false_of_ne (Ne.symm hnode)]
        rfl

theorem openAll_contains (units : SortedMap PoolProperties) :
    (openAll policy units).Keeps (.any ClusterRequest.IsPassive)
      (fun r _ => ∀ all, r = .ok all → ∀ node, all.contains node = units.contains node) () := by
  refine (openFrom_contains units.entries ∅).mono fun r _ h all hall node => (h all hall node).trans ?_
  rw [Bool.eq_iff_iff, ← SortedMap.mem_keys_iff units]
  simp [SortedMap.keys, SortedMap.contains, EmptyCollection.emptyCollection, SortedMap.empty,
    SortedMap.get?]

/-- **Opening pools for units**: either they are all open and held, or none of them is. -/
theorem keeps_openFrom {l : List (String × PoolProperties)}
    (hl : l.Pairwise (fun a b => a.1 < b.1)) {opened : SortedMap PoolId}
    (hheld : s.held = poolBag opened) (hnew : ∀ e ∈ l, opened.get? e.1 = none) :
    (openFrom policy opened l).Keeps (unitTerms db) (fun
      | .ok all, s' => s' = ⟨poolBag all, s.database⟩
      | .error _, s' => s' = ⟨0, s.database⟩) s := by
  induction l generalizing opened s with
  | nil =>
    show s = _
    rw [← hheld]
  | cons e l ih =>
    obtain ⟨unit, properties⟩ := e
    rw [List.pairwise_cons] at hl
    unfold openFrom
    rw [keeps_bind]
    refine Cluster.keeps_openPool (fun pool => ?_) fun e => ?_
    -- one more pool is open and held
    · have hheld' : pool ::ₘ s.held = poolBag (opened.insert unit pool) := by
        have htotal := SortedMap.total_insert_of_none (fun pool : PoolId => ({pool} : Multiset PoolId))
          (hnew (unit, properties) List.mem_cons_self) pool
        rw [hheld]
        exact ((Multiset.singleton_add _ _).symm.trans htotal.symm)
      have hnew' : ∀ x ∈ l, (opened.insert unit pool).get? x.1 = none := by
        intro x hx
        have hne : x.1 ≠ unit := fun heq => String.lt_irrefl _ (heq ▸ hl.1 x hx)
        rw [SortedMap.get?_insert_of_ne _ _ hne]
        exact hnew x (List.mem_cons_of_mem _ hx)
      exact ih (s := { s with held := pool ::ₘ s.held }) hl.2 hheld' hnew'
    -- a pool does not open, and those that are open are given back
    · show (Cluster.warn _ >>= fun _ => Cluster.retire policy opened.values >>= fun _ =>
        Plan.fail e).Keeps _ _ _
      rw [keeps_bind]
      refine Cluster.keeps_warn ?_
      show (Cluster.retire policy opened.values >>= fun _ => Plan.fail e).Keeps _ _ _
      rw [keeps_bind]
      have hall : (opened.values : Multiset PoolId) = s.held := by rw [hheld, poolBag_eq]
      refine Cluster.keeps_retire (le_of_eq hall) ?_
      show (⟨s.held - (opened.values : Multiset PoolId), s.database⟩ : Holding) = ⟨0, s.database⟩
      rw [hall, tsub_self]

theorem keeps_openAll (units : SortedMap PoolProperties) (hheld : s.held = 0) :
    (openAll policy units).Keeps (unitTerms db) (fun
      | .ok all, s' => s' = ⟨poolBag all, s.database⟩
      | .error _, s' => s' = ⟨0, s.database⟩) s :=
  keeps_openFrom units.ascending hheld fun _ _ => rfl

end Switch

/-! ### The stages of a change

On whichever terms a change is looked at, it goes through the same stages. What each of them leads to is
for the terms to say. -/

section Stages

open Plan

variable {σ : Type} {T : Terms clusterInterface σ} {s : σ} {post : Except Failure Unit → σ → Prop}
  {db : String} {change : UnitChange}

/-- **The stages of applying a change**: the generation is built, the change is written, and the database
of what was built is installed. The first stage that fails ends it. -/
theorem UnitChange.keeps_apply_of_stages {before : Generation} {diff : ResourceDiff}
    (h : (Cluster.build db false diff before).Keeps T (fun
      | .error f, s => post (.error f) s
      | .ok reload, s => match reload.database db with
        | .error e => post (.error (.error e)) s
        | .ok d => (Cluster.access (change.persist db before reload)).Keeps T (fun
          | .error f, s => post (.error f) s
          | .ok _, s => (Cluster.installDatabase d).Keeps T
            (fun installed s => post (installed.map fun _ => ()) s) s) s) s) :
    (change.apply db before diff).Keeps T post s := by
  unfold UnitChange.apply
  refine h.bind (fun reload s h => ?_) fun _ _ h => h
  rw [keeps_bind, keeps_ofExcept]
  -- the database is looked up in the generation that was built; without it nothing is written
  cases hdatabase : reload.database db with
  | error e =>
    simp only [hdatabase] at h
    exact h
  | ok d =>
    simp only [hdatabase] at h
    refine h.bind (fun _ s h => ?_) fun _ _ h => h
    exact h.bind (fun _ _ h => h) fun _ _ h => h

/-- **The stages of a change**: the current generation is looked at, the difference is worked out and
applied, and then the pools that were replaced are handed over. If it cannot be applied, there is a
warning, and those that were opened are handed over instead. -/
theorem Service.keeps_switchUnits_of_stages (service : Service)
    (h : Cluster.current.Keeps T (fun
      | .error f, s => post (.error f) s
      | .ok before, s => match before.databases.get? db with
        | none => post (.error (.error (.databaseNotFound db))) s
        | some d => (change.diff service.drain d.resource).Keeps T (fun
          | .error f, s => post (.error f) s
          | .ok diff, s => (change.apply db before diff).Keeps T (fun
            | .ok _, s => (Cluster.retire service.drain diff.stale.values).Keeps T post s
            | .error .overflow, s => post (.error .overflow) s
            | .error (.error e), s => (Cluster.warn (.unitChangeFailed db e) >>= fun _ =>
                Cluster.retire service.drain diff.opened.values >>= fun _ =>
                  (Plan.fail e : Cluster Unit)).Keeps T post s) s) s) s) :
    (service.switchUnits db change).Keeps T post s := by
  unfold switchUnits
  refine h.bind (fun before s h => ?_) fun _ _ h => h
  rw [keeps_bind, keeps_ofExcept, Generation.database]
  cases hd : before.databases.get? db with
  | none =>
    simp only [hd] at h
    exact h
  | some d =>
    simp only [hd] at h
    refine h.bind (fun diff s h => ?_) fun _ _ h => h
    rw [keeps_bind, keeps_attempt]
    refine h.mono fun result s h => ?_
    -- the three results of applying the change are the three cases of the last stage
    rcases result with (e | _) | _ <;> exact h

end Stages

/-! ### One change -/

namespace UnitChange

open Plan

variable {db : String} {s : Holding} {policy : DrainPolicy} {d : Database} {r : Resource}

/-- **The diffs that a change of a resource can yield.** They differ in the pools that are opened. -/
inductive Yields (r : Resource) : UnitChange → ResourceDiff → Prop
  | register {units : SortedMap PoolProperties} {opened : SortedMap PoolId}
    (hnew : ∀ name, units.contains name = true → r.units.contains name = false)
    (hopened : ∀ node, opened.contains node = units.contains node) :
    Yields r (.register units) (.register r units opened)
  | alter {units : SortedMap PoolProperties} {opened : SortedMap PoolId}
    (hopened : ∀ node, opened.contains node = units.contains node) :
    Yields r (.alter units) (.alter r units opened)
  | unregister (unit : String) : Yields r (.unregister unit) (.unregister r [unit])

/-- **What a change works out is an exchange**, whichever change it is. -/
theorem Yields.exchanges {change : UnitChange} {diff : ResourceDiff} (h : Yields r change diff)
    (hfits : r.Fits) : diff.Exchanges r := by
  cases h with
  | register hnew hopened => exact ResourceDiff.register_exchanges hfits hnew hopened
  | alter hopened => exact ResourceDiff.alter_exchanges hfits hopened
  | unregister unit => exact ResourceDiff.unregister_exchanges hfits [unit]

/-- **How a change is worked out**: it fails before a pool is opened, or it opens pools and makes a diff of
them. A removal opens none. -/
theorem diff_rule {motive : Cluster ResourceDiff → Prop} (policy : DrainPolicy) (change : UnitChange)
    (r : Resource) (hfail : ∀ e, motive (Plan.fail e))
    (hopen : ∀ (units : SortedMap PoolProperties) (make : SortedMap PoolId → ResourceDiff),
      (∀ opened, (make opened).opened = opened) →
        motive (Switch.openAll policy units >>= fun opened => pure (make opened))) :
    motive (change.diff policy r) := by
  -- only registering can fail before anything is opened, and removing opens an empty list
  cases change with
  | register units =>
    show motive (Switch.register policy r units)
    unfold Switch.register
    dsimp only
    split
    · exact hfail _
    · exact hopen units (.register r units) fun _ => rfl
  | alter units => exact hopen units (.alter r units) fun _ => rfl
  | unregister unit =>
    exact hopen ∅ (fun opened => { ResourceDiff.unregister r [unit] with opened }) fun _ => rfl

/-- **Working out a change** yields one of its diffs, and has to do with pools only. -/
theorem diff_yields (change : UnitChange) (r : Resource) :
    (change.diff policy r).Keeps (.any ClusterRequest.IsPassive)
      (fun result _ => ∀ diff, result = .ok diff → Yields r change diff) () := by
  cases change with
  | register units =>
    show (Switch.register policy r units).Keeps _ _ _
    unfold Switch.register
    dsimp only
    split
    · exact fun _ h => by cases h
    · -- none of the units is there yet
      rename_i hnew
      refine (Switch.openAll_contains units).bind (fun opened _ h => ?_) fun _ _ _ _ h => by cases h
      rintro diff hdiff
      cases hdiff
      refine .register (fun name hname => ?_) (h opened rfl)
      rw [not_not, List.filter_eq_nil_iff] at hnew
      simpa using hnew name ((SortedMap.mem_keys_iff units).2 hname)
  | alter units =>
    show (Switch.alter policy r units).Keeps _ _ _
    unfold Switch.alter
    refine (Switch.openAll_contains units).bind (fun opened _ h => ?_) fun _ _ _ _ h => by cases h
    rintro diff hdiff
    cases hdiff
    exact .alter (h opened rfl)
  | unregister unit =>
    rintro diff hdiff
    cases hdiff
    exact .unregister unit

/-- Working out a change opens the pools that the diff puts in, or none. -/
theorem keeps_diff (change : UnitChange) (r : Resource) (hheld : s.held = 0) :
    (change.diff policy r).Keeps (unitTerms db) (fun result s' => (match result with
      | .ok diff => s' = ⟨poolBag diff.opened, s.database⟩
      | .error _ => s' = ⟨0, s.database⟩)
      ∧ ∀ diff, result = .ok diff → Yields r change diff) s := by
  have hsame : s = ⟨0, s.database⟩ := by rw [← hheld]
  refine Keeps.and_any ?_ (diff_yields change r)
  refine diff_rule (motive := fun p => p.Keeps _ _ s) policy change r (fun _ => hsame)
    fun units make hmake => ?_
  refine (Switch.keeps_openAll units hheld).bind (fun opened s' h => ?_) fun _ _ h => h
  show s' = ⟨poolBag (make opened).opened, s.database⟩
  rw [hmake]
  exact h

/-- The generation that a change builds has the changed database. Only the number of the generation
can fail. -/
theorem rebuild_cases (diff : ResourceDiff) {before : Generation}
    (hbefore : before.databases.get? db = some d) (hname : d.name = db) :
    diff.rebuild db false before = .error .overflow
      ∨ ∃ reload, diff.rebuild db false before = .ok reload
        ∧ reload.database db = .ok { d with resource := diff.applyTo d.resource } := by
  unfold ResourceDiff.rebuild
  rw [hbefore]
  show Generation.successor _ = _ ∨ ∃ _, Generation.successor _ = _ ∧ _
  unfold Generation.successor
  -- there may be no version left; otherwise the entry stands under the name of the database
  split
  · refine .inr ⟨_, rfl, ?_⟩
    show (((before.databases.insert d.name _).get? db).elim _ _ : Except Error Database) = _
    rw [hname, SortedMap.get?_insert_self]
    rfl
  · exact .inl rfl

/-- **Applying a change** installs the database, and then what is held are the stale pools; or it
leaves everything as it was. -/
theorem keeps_apply (change : UnitChange) {before : Generation} {diff : ResourceDiff}
    (hbefore : before.databases.get? db = some d) (hdatabase : s.database = some d)
    (hname : d.name = db) (hex : diff.Exchanges d.resource) (hheld : s.held = poolBag diff.opened) :
    (change.apply db before diff).Keeps (unitTerms db) (fun
      | .ok (), s' =>
        s' = ⟨poolBag diff.stale, some { d with resource := diff.applyTo d.resource }⟩
      | .error .overflow, _ => True
      | .error (.error _), s' => s' = s) s := by
  refine keeps_apply_of_stages (Cluster.keeps_build ?_ fun e => rfl)
  rcases rebuild_cases diff hbefore hname with hreload | ⟨reload, hreload, hchanged⟩
  · rw [hreload]
    trivial
  · rw [hreload]
    dsimp only
    rw [hchanged]
    refine Cluster.keeps_access fun result => ?_
    rcases result with (_ | _) | _
    · rfl
    · trivial
    -- everything is written: the opened pools go in, and the stale ones come out into the hand
    · have hlive : s.live = poolBag d.resource.pools := by rw [Holding.live, hdatabase]; rfl
      have hbalanced := hex.balanced
      refine Cluster.keeps_installDatabase hname hex.fits ?_ (fun g => ?_) trivial
      · rw [hheld, hlive, add_comm, ← hbalanced]
        exact Multiset.le_add_right _ _
      · show (⟨_, _⟩ : Holding) = ⟨_, _⟩
        rw [hheld, hlive, add_comm, ← hbalanced, add_tsub_cancel_left]

end UnitChange

namespace Service

open Plan

variable {db : String} {s : Holding} (service : Service)

/-- **A change of storage units** makes its requests on its terms and ends without a pool. -/
theorem keeps_switchUnits (change : UnitChange) (h : s.Idle db) :
    (service.switchUnits db change).Keeps (unitTerms db) (Holding.Settled db) s := by
  obtain ⟨hheld, hdatabase⟩ := h
  refine service.keeps_switchUnits_of_stages (Cluster.keeps_current fun before hbefore => ?_)
  dsimp only
  cases hd : before.databases.get? db with
  | none => exact ⟨hheld, hdatabase⟩
  | some d =>
    have hsome : s.database = some d := hbefore.symm.trans hd
    -- the pools in force have the names of their units, so an exchange is balanced
    obtain ⟨hname, hfits⟩ := hdatabase d hsome
    refine (change.keeps_diff d.resource hheld).mono fun result s' h => ?_
    cases result with
    | error f =>
      obtain rfl : s' = ⟨0, s.database⟩ := h.1
      exact Holding.Idle.settled (s := ⟨0, s.database⟩) ⟨rfl, hdatabase⟩ _
    | ok diff =>
      obtain ⟨hs', hyields⟩ := h
      have hex := (hyields diff rfl).exchanges hfits
      obtain rfl : s' = ⟨poolBag diff.opened, s.database⟩ := hs'
      refine (change.keeps_apply (s := ⟨poolBag diff.opened, s.database⟩) hd hsome hname hex
        rfl).mono fun result s' h => ?_
      rcases result with (e | _) | _
      · -- what was opened is given back
        obtain rfl : s' = ⟨poolBag diff.opened, s.database⟩ := h
        dsimp only
        rw [keeps_bind]
        refine Cluster.keeps_warn ?_
        show (Cluster.retire service.drain diff.opened.values >>= fun _ => Plan.fail e).Keeps _ _ _
        rw [keeps_bind]
        refine Cluster.keeps_retire (le_of_eq (poolBag_eq _).symm) ⟨?_, hdatabase⟩
        show poolBag diff.opened - (diff.opened.values : Multiset PoolId) = 0
        rw [poolBag_eq, tsub_self]
      · trivial
      · -- what was replaced is handed over
        obtain rfl : s' = ⟨poolBag diff.stale, some _⟩ := h
        refine Cluster.keeps_retire (le_of_eq (poolBag_eq _).symm) ⟨?_, fun d' hd' => ?_⟩
        · show poolBag diff.stale - (diff.stale.values : Multiset PoolId) = 0
          rw [poolBag_eq, tsub_self]
        · obtain rfl := Option.some.inj hd'
          exact ⟨hname, hex.fits⟩

end Service

/-! ### Operations -/

/-- **An operation on the storage units** of a database. -/
inductive UnitOperation where
  | register (units : SortedMap PoolProperties)
  | alter (units : SortedMap PoolProperties)
  | unregister (units : List String)

namespace UnitOperation

open Plan

/-- The names that an operation is given. -/
def names : UnitOperation → List String
  | register units | alter units => units.keys
  | unregister units => units

/-- How an operation is carried out. -/
def run (service : Service) (db : String) : UnitOperation → Cluster Unit
  | register units => service.registerUnits db units
  | alter units => service.alterUnits db units
  | unregister units => service.unregisterUnits db units

/-- **An operation on storage units** makes its requests on its terms and ends without a pool. -/
theorem keeps_run (service : Service) {db : String} (op : UnitOperation) {s : Holding}
    (h : s.Idle db) : (op.run service db).Keeps (unitTerms db) (Holding.Settled db) s := by
  cases op with
  | register units => exact service.keeps_switchUnits (.register units) h
  | alter units => exact service.keeps_switchUnits (.alter units) h
  | unregister units =>
    show (Service.unregisterUnits service db units).Keeps _ _ _
    unfold Service.unregisterUnits
    rw [keeps_bind]
    refine Cluster.keeps_access fun result => ?_
    cases result with
    | error f => exact h.settled (.error f)
    | ok stored =>
      -- between two removals no pool is held
      refine Keeps.forM (fun _ s => s.Idle db) h (fun unit rest s hs => ?_) fun s hs => hs
      split
      · refine (service.keeps_switchUnits (.unregister unit) hs).mono fun r s h => ?_
        rcases r with (_ | _) | _ <;> exact h
      · exact hs

end UnitOperation

end ClusterCatalog
