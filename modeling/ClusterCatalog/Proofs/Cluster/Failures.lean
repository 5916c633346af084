import ClusterCatalog.Proofs.Cluster.Overtaking

/-!
# Changes of storage units that fail

A change of storage units has many ways to fail: its database is unknown, a unit that it adds is
there already, a pool does not open, the generation is not built, or a call of the repository is
refused, at each of the writes. What is there after each of them?

`Doings` is an account of what a change has done: which pools it opened, what it built, wrote and
handed over to be drained. `UnitChange.Fails` says for each way to fail what the account is, in full.
The current generation is the same as before in all of them, and nothing is written before all pools
are open and the generation is built (`UnitChange.fails_cleanly`).

`UnitAttempt` is a change under way. Whatever it asks for may fail, for any reason, and between two
requests others may do anything but install a generation. Three facts carry the result:

* On the terms of a change (`attemptTerms`), each request is made only if what is accounted for after
  it is in order. The order of the stages is read off this, at every moment of the change and not
  only in the end.
* The units are gone through in ascending order, so each pool that is opened comes last among those
  that are open (`SortedMap.entries_insert_of_lt`). What is handed over is the list of the opened
  pools, in the same order.
* A new pool has a number that no pool had before, so a pool that is handed over once in this list is
  handed over once.
-/

namespace ClusterCatalog

open Plan

/-! ### The account of a change -/

/-- What a call writes. -/
def StoreRequest.writes : StoreRequest → List Write
  | .persist path value => [.persist path value]
  | .delete path => [.delete path]
  | _ => []

/-- Units with the pools that were opened for them. -/
abbrev UnitPools := List ((String × PoolProperties) × PoolId)

/-- **What a change has done so far**, each kind of deed in its order. -/
structure Doings where
  /-- The units for which a pool was to be opened, and what came of it. -/
  openings : List ((String × PoolProperties) × Except Error PoolId) := []
  /-- What came of building the generation. -/
  builds : List (Except Failure Generation) := []
  /-- What was to be written or deleted, whether it was refused or not. -/
  writes : List Write := []
  /-- The pools that were handed over to be drained. -/
  retired : List PoolId := []

namespace Doings

/-- The account after a request and its reply. -/
def record (d : Doings) : (r : ClusterRequest) → r.Reply → Doings
  | .store call, _ => { d with writes := d.writes ++ call.writes }
  | .build .., reply => { d with builds := d.builds ++ [reply] }
  | .openPool unit properties, reply =>
    { d with openings := d.openings ++ [((unit, properties), reply)] }
  | .retire _ pools, _ => { d with retired := d.retired ++ pools }
  | _, _ => d

/-- A warning is not accounted for. -/
theorem record_warn (d : Doings) (w : Warning) (reply : (ClusterRequest.store (.warn w)).Reply) :
    d.record (.store (.warn w)) reply = d := by
  show { d with writes := d.writes ++ [] } = d
  rw [List.append_nil]

/-- The account of one who has opened pools, and done nothing else. -/
def opened (l : UnitPools) : Doings := { openings := l.map fun o => (o.1, .ok o.2) }

/-- The pools that were opened. -/
def pools (d : Doings) : List PoolId := d.openings.filterMap fun o => o.2.toOption

theorem pools_opened (l : UnitPools) : (opened l).pools = l.map (·.2) := by
  show (l.map _).filterMap _ = _
  rw [List.filterMap_map]
  exact congrFun List.filterMap_eq_map' l

/-- Where a pool does not open, there is none. -/
theorem pools_refused (d : Doings) (unit : String) (properties : PoolProperties) (e : Error) :
    (d.record (.openPool unit properties) (.error e)).pools = d.pools :=
  List.filterMap_append.trans (List.append_nil _)

/-- **The opened pools are numbered** in ascending order, below a bound. -/
def Numbered (d : Doings) (bound : Nat) : Prop :=
  d.pools.Pairwise (· < ·) ∧ ∀ pool ∈ d.pools, pool < bound

variable {d : Doings} {bound : Nat}

theorem Numbered.mono (h : d.Numbered bound) {bound' : Nat} (hle : bound ≤ bound') :
    d.Numbered bound' := ⟨h.1, fun pool hpool => Nat.lt_of_lt_of_le (h.2 pool hpool) hle⟩

theorem Numbered.refused (h : d.Numbered bound) (unit : String) (properties : PoolProperties)
    (e : Error) : (d.record (.openPool unit properties) (.error e)).Numbered bound := by
  unfold Numbered
  rw [d.pools_refused]
  exact h

/-- A new pool may have the bound as its number. -/
theorem Numbered.openPool (h : d.Numbered bound) (unit : String) (properties : PoolProperties) :
    (d.record (.openPool unit properties) (.ok bound)).Numbered (bound + 1) := by
  have hpools : (d.record (.openPool unit properties) (.ok bound)).pools = d.pools ++ [bound] :=
    List.filterMap_append
  unfold Numbered
  rw [hpools, List.pairwise_append]
  refine ⟨⟨h.1, List.pairwise_singleton _ _, fun pool hpool new hnew => ?_⟩, fun pool hpool => ?_⟩
  · obtain rfl := List.mem_singleton.1 hnew
    exact h.2 pool hpool
  · rcases List.mem_append.1 hpool with hold | hnew
    · exact Nat.lt_succ_of_lt (h.2 pool hold)
    · exact List.mem_singleton.1 hnew ▸ Nat.lt_succ_self bound

end Doings

/-! ### What a change is to do -/

namespace UnitChange

/-- The units for which a change opens pools. -/
def toOpen : UnitChange → SortedMap PoolProperties
  | register units | alter units => units
  | unregister _ => ∅

/-- Whether a change adds a unit, so that there must be none of its name. -/
def Adds : UnitChange → String → Prop
  | register units, name => units.contains name = true
  | _, _ => False

/-- **The units that a change adds though they are there already**, in ascending order. -/
structure Duplicates (change : UnitChange) (r : Resource) (names : List String) : Prop where
  ascending : names.Pairwise (· < ·)
  mem_iff : ∀ name, name ∈ names ↔ change.Adds name ∧ r.units.contains name = true

/-- **A change that is admitted**: its database is known, and it adds only units that are not there. -/
def Admitted (change : UnitChange) (g : Generation) (db : String) : Prop :=
  ∃ d, g.databases.get? db = some d ∧ change.Duplicates d.resource []

/-- A change that adds no units is admitted wherever its database is known. -/
theorem Admitted.of_not_adds {change : UnitChange} {g : Generation} {db : String} {d : Database}
    (hdb : g.databases.get? db = some d) (h : ∀ name, ¬ change.Adds name) : change.Admitted g db := by
  refine ⟨d, hdb, .nil, fun name => ⟨fun hname => ?_, fun hname => ?_⟩⟩
  · exact absurd hname List.not_mem_nil
  · exact absurd hname.1 (h name)

/-- A change that adds a unit that is there is not admitted. -/
theorem not_admitted {change : UnitChange} {g : Generation} {db name : String} {d : Database}
    (hdb : g.databases.get? db = some d) (hadds : change.Adds name)
    (hunit : d.resource.units.contains name = true) : ¬ change.Admitted g db := by
  rintro ⟨d', hdb', hnone⟩
  obtain rfl : d = d' := Option.some.inj (hdb.symm.trans hdb')
  exact List.not_mem_nil ((hnone.mem_iff name).2 ⟨hadds, hunit⟩)

/-- **Everything is ready to be written**: a pool was opened for each unit in the order of the names,
and the generation has been built. -/
def Ready (change : UnitChange) (d : Doings) : Prop :=
  (∃ l : UnitPools, change.toOpen.entries = l.map (·.1) ∧ d.openings = (Doings.opened l).openings)
    ∧ ∃ reload, d.builds = [.ok reload]

/-- **The stages come in their order**: something is written only when everything is ready. -/
def Orderly (change : UnitChange) (d : Doings) : Prop := d.writes ≠ [] → change.Ready d

/-- **How a change fails**, and what it has done by then. `l` are the units whose pools were opened,
and those pools are handed over to be drained, each of them once. -/
inductive Fails (change : UnitChange) (g : Generation) (db : String) : Error → Doings → Prop
  /-- The database is unknown. -/
  | unknown (h : g.databases.get? db = none) : Fails change g db (.databaseNotFound db) {}
  /-- Units that are to be added are there already. -/
  | duplicates {d : Database} {names : List String} (hdb : g.databases.get? db = some d)
      (h : change.Duplicates d.resource names) (hne : names ≠ []) :
      Fails change g db (.duplicateUnits names) {}
  /-- A pool does not open. Pools have been opened for the units before it, and for no others. -/
  | notOpened {l : UnitPools} {unit : String} {properties : PoolProperties}
      {later : List (String × PoolProperties)} {e : Error} (h : change.Admitted g db)
      (hunits : change.toOpen.entries = l.map (·.1) ++ (unit, properties) :: later) :
      Fails change g db e
        { openings := (Doings.opened l).openings ++ [((unit, properties), .error e)]
          retired := l.map (·.2) }
  /-- All pools are open, and the generation is not built. -/
  | notBuilt {l : UnitPools} {e : Error} (h : change.Admitted g db)
      (hunits : change.toOpen.entries = l.map (·.1)) :
      Fails change g db e
        { Doings.opened l with builds := [.error (.error e)], retired := l.map (·.2) }
  /-- The generation is built, and the change is not written, or not in full. -/
  | notWritten {l : UnitPools} {reload : Generation} {writes : List Write} {e : Error}
      (h : change.Admitted g db) (hunits : change.toOpen.entries = l.map (·.1)) :
      Fails change g db e
        { Doings.opened l with builds := [.ok reload], writes, retired := l.map (·.2) }

/-- **A change that fails keeps no pool**: those that it has opened are handed over, and no others. -/
theorem Fails.retired_eq {change : UnitChange} {g : Generation} {db : String} {e : Error} {d : Doings}
    (h : change.Fails g db e d) : d.retired = d.pools := by
  cases h with
  | unknown h => rfl
  | duplicates hdb h hne => rfl
  | @notOpened l unit properties later e h hunits =>
    -- the unit that failed has no pool
    calc l.map (·.2) = (Doings.opened l).pools := (Doings.pools_opened l).symm
      _ = _ := ((Doings.opened l).pools_refused unit properties e).symm
  | @notBuilt l e h hunits => exact (Doings.pools_opened l).symm
  | @notWritten l reload writes e h hunits => exact (Doings.pools_opened l).symm

/-- **How a change ends** that was started in the generation `g`. An overflow is not an error: with it
the change comes to a halt. -/
def Concludes (change : UnitChange) (g : Generation) (db : String) :
    Except Failure Unit → Generation × Doings → Prop
  | .ok _, s => change.Admitted g db ∧ change.Ready s.2
  | .error .overflow, s => change.Admitted g db ∧ s.1 = g
  | .error (.error e), s => change.Fails g db e s.2 ∧ s.1 = g

/-- **A change that adds a unit that is there** ends before it has done anything. -/
theorem Concludes.duplicates {change : UnitChange} {g : Generation} {db name : String} {d : Database}
    {result : Except Failure Unit} {s : Generation × Doings} (h : change.Concludes g db result s)
    (hdb : g.databases.get? db = some d) (hadds : change.Adds name)
    (hunit : d.resource.units.contains name = true) :
    ∃ names, change.Duplicates d.resource names ∧ result = .error (.error (.duplicateUnits names))
      ∧ s.2 = {} := by
  have hnot : ¬ change.Admitted g db := not_admitted hdb hadds hunit
  obtain ⟨g', doings⟩ := s
  rcases result with (e | _) | _
  · obtain ⟨hfails, -⟩ := h
    -- of all ways to fail, only that of duplicates does not ask for an admitted change
    cases hfails with
    | unknown h => rw [hdb] at h; cases h
    | @duplicates d' names hdb' h hne =>
      obtain rfl : d = d' := Option.some.inj (hdb.symm.trans hdb')
      exact ⟨names, h, rfl, rfl⟩
    | notOpened h hunits => exact absurd h hnot
    | notBuilt h hunits => exact absurd h hnot
    | notWritten h hunits => exact absurd h hnot
  · exact absurd h.1 hnot
  · exact absurd h.1 hnot

end UnitChange

/-! ### A change under way -/

/-- **What others do in between.** They install no generation and forget no pool. -/
structure Aside where
  change : Stage → Stage
  generation_change : ∀ s, (change s).generation = s.generation
  pools_change : ∀ s, s.pools.length ≤ (change s).pools.length

/-- **A move**: others do something, or the change makes its next request, which may fail. -/
inductive AttemptMove where
  | meanwhile (aside : Aside)
  | next (failure : Option Error)

/-- **A change under way**, with the account of what it has done. -/
structure UnitAttempt extends RuleRun where
  doings : Doings := {}

namespace UnitAttempt

/-- The attempt after a move. -/
def step (run : UnitAttempt) : AttemptMove → UnitAttempt
  | .meanwhile aside => { run with stage := aside.change run.stage }
  | .next failure =>
    match run.rest with
    | .ask r k =>
      let answered := Stage.answerUnless failure r run.stage
      { stage := answered.2, rest := k answered.1, doings := run.doings.record r answered.1 }
    | _ => run

/-- The attempt after all moves. -/
def after (run : UnitAttempt) (moves : List AttemptMove) : UnitAttempt := moves.foldl step run

end UnitAttempt

/-- How the generation goes on after a request. Only a database that is put in changes it, and then
only the number can overflow; what is built is the rebuilt generation, unless that fails. -/
def Generation.Follows (g : Generation) : (r : ClusterRequest) → r.Reply → Generation → Prop
  | .current, reply, g' => reply = g ∧ g' = g
  | .build db isNew diff before, reply, g' =>
    (reply = diff.rebuild db isNew before ∨ ∃ e, reply = .error (.error e)) ∧ g' = g
  | .installDatabase _, .ok _, _ => True
  | .installDatabase _, .error f, g' => f = .overflow ∧ g' = g
  | _, _, g' => g' = g

/-- **The terms of a change whose doings are accounted for**: a request is made only if the stages are
in their order after it, whatever is replied. -/
def attemptTerms (change : UnitChange) : Terms clusterInterface (Generation × Doings) where
  Owed r s := ∀ reply, change.Orderly (s.2.record r reply)
  Answers r s reply s' := ∃ g', s.1.Follows r reply g' ∧ s' = (g', s.2.record r reply)

/-- **Every request** of a change is answered on these terms, and a pool gets a new number. -/
theorem Stage.answerUnless_attempt (change : UnitChange) (failure : Option Error) (r : ClusterRequest)
    (s : Stage) {d : Doings} (hnumbered : d.Numbered s.pools.length) :
    let answered := Stage.answerUnless failure r s
    (attemptTerms change).Answers r (s.generation, d) answered.1
        (answered.2.generation, d.record r answered.1)
      ∧ (d.record r answered.1).Numbered answered.2.pools.length := by
  intro answered
  -- the account goes with the answer, so only the generation and the pools are looked at
  suffices h : s.generation.Follows r answered.1 answered.2.generation
      ∧ (d.record r answered.1).Numbered answered.2.pools.length from ⟨⟨_, h.1, rfl⟩, h.2⟩
  have hled : s.LeadsTo (failure = some ·) r answered := s.leadsTo_answerUnless failure r
  clear_value answered
  cases hled with
  | answered call =>
    obtain ⟨hgeneration, hpools⟩ := s.answerStore_frame call
    exact ⟨hgeneration, hnumbered.mono (Nat.le_of_eq (congrArg List.length hpools.symm))⟩
  | built name isNew diff before => exact ⟨⟨.inl rfl, rfl⟩, hnumbered⟩
  | notBuilt name isNew diff before e => exact ⟨⟨.inr ⟨e, rfl⟩, rfl⟩, hnumbered⟩
  | opened unit properties =>
    have hlength : (s.openPool unit properties.url).2.pools.length = s.pools.length + 1 :=
      List.length_append
    exact ⟨rfl, (hnumbered.openPool unit properties).mono (Nat.le_of_eq hlength.symm)⟩
  | notOpened unit properties e => exact ⟨rfl, hnumbered.refused unit properties e⟩
  | current => exact ⟨⟨rfl, rfl⟩, hnumbered⟩
  | installed hg => exact ⟨trivial, hnumbered⟩
  | notInstalled d => exact ⟨⟨rfl, rfl⟩, hnumbered⟩
  | _ => exact ⟨rfl, hnumbered⟩

namespace UnitAttempt

variable {change : UnitChange} {g : Generation} {db : String} {run : UnitAttempt}

/-- **The invariant of a change under way**: what is left of it keeps to its terms, and what it has
done so far is in order. -/
structure Underway (change : UnitChange) (g : Generation) (db : String) (run : UnitAttempt) : Prop where
  keeps : run.rest.Keeps (attemptTerms change) (change.Concludes g db)
    (run.stage.generation, run.doings)
  orderly : change.Orderly run.doings
  numbered : run.doings.Numbered run.stage.pools.length

/-- **One move** keeps the invariant. -/
theorem Underway.step (h : run.Underway change g db) (move : AttemptMove) :
    (run.step move).Underway change g db := by
  obtain ⟨⟨s, rest⟩, doings⟩ := run
  obtain ⟨hkeeps, horderly, hnumbered⟩ := h
  cases move with
  | meanwhile aside =>
    refine ⟨?_, horderly, hnumbered.mono (aside.pools_change s)⟩
    show rest.Keeps _ _ ((aside.change s).generation, doings)
    rw [aside.generation_change]
    exact hkeeps
  | next failure =>
    cases rest with
    | done a => exact ⟨hkeeps, horderly, hnumbered⟩
    | stop f => exact ⟨hkeeps, horderly, hnumbered⟩
    | ask r k =>
      -- that the account is in order after the request was owed when it was made
      obtain ⟨hanswers, hnumbered'⟩ := s.answerUnless_attempt change failure r hnumbered
      exact ⟨hkeeps.2 _ _ hanswers, hkeeps.1 _, hnumbered'⟩

theorem Underway.after (h : run.Underway change g db) (moves : List AttemptMove) :
    (run.after moves).Underway change g db := by
  induction moves generalizing run with
  | nil => exact h
  | cons move moves ih => exact ih (h.step move)

/-- **A change that is over** has ended as it should. -/
theorem Underway.concludes (h : run.Underway change g db) {result : Except Failure Unit}
    (hresult : run.result? = some result) :
    change.Concludes g db result (run.stage.generation, run.doings) := by
  obtain ⟨⟨s, rest⟩, doings⟩ := run
  obtain ⟨hkeeps, -, -⟩ := h
  cases rest with
  | done a => cases hresult; exact hkeeps
  | stop f => cases hresult; exact hkeeps
  | ask r k => cases hresult

end UnitAttempt

/-! ### The stages of a change -/

namespace ResourceDiff

variable {db : String} {isNew : Bool} {before : Generation} {d : Database} (diff : ResourceDiff)

/-- A generation that is rebuilt for a database that it has still has it. -/
theorem database_of_rebuild (hdb : before.databases.get? db = some d) {reload : Generation}
    (h : diff.rebuild db isNew before = .ok reload) : ∃ changed, reload.database db = .ok changed := by
  unfold rebuild at h
  rw [hdb] at h
  unfold Generation.database
  rw [Generation.databases_of_succeededBy h, SortedMap.get?_insert, hdb]
  -- the changed database is put in under its own name, even if that is another one
  split
  · exact ⟨_, rfl⟩
  · exact ⟨d, rfl⟩

/-- Rebuilding for a known database fails only for the number of the generation. -/
theorem eq_overflow_of_rebuild (hdb : before.databases.get? db = some d) {f : Failure}
    (h : diff.rebuild db isNew before = .error f) : f = .overflow := by
  unfold rebuild at h
  rw [hdb] at h
  exact Generation.eq_overflow_of_succeededBy h

end ResourceDiff

namespace UnitChange

variable {change : UnitChange} {g : Generation} {db : String}

/-- Where nothing is written, the stages are in their order. -/
theorem Orderly.of_writes {d : Doings} (h : d.writes = []) : change.Orderly d :=
  fun hwrites => absurd h hwrites

/-- **An operation on the repository** that is carried out when everything is ready adds to what is
written, and to nothing else. -/
theorem keeps_access_of_ready {α : Type} {post : Except Failure α → Generation × Doings → Prop}
    {p : Access α} {d : Doings} (hready : change.Ready d)
    (hpost : ∀ result writes, post result (g, { d with writes })) :
    (Cluster.access p).Keeps (attemptTerms change) post (g, d) := by
  unfold Cluster.access
  induction p generalizing d with
  | done a => exact hpost _ d.writes
  | stop f => exact hpost _ d.writes
  | ask call k ih =>
    -- a call adds to the writes at most, so everything stays ready
    refine ⟨fun _ _ => hready, ?_⟩
    rintro reply _ ⟨_, rfl, rfl⟩
    exact ih reply hready hpost

/-- **Giving up**: the opened pools are handed over, and the error is passed on. -/
theorem keeps_giveUp {α : Type} {post : Except Failure α → Generation × Doings → Prop} {d : Doings}
    {e : Error} (w : Warning) (policy : DrainPolicy) {pools : List PoolId} (horderly : change.Orderly d)
    (hpost : post (.error (.error e)) (g, d.record (.retire policy pools) ())) :
    (Cluster.warn w >>= fun _ => Cluster.retire policy pools >>= fun _ =>
      (Plan.fail e : Cluster α)).Keeps (attemptTerms change) post (g, d) := by
  refine ⟨fun reply => ?_, ?_⟩
  · show change.Orderly (d.record _ reply)
    rwa [Doings.record_warn]
  · -- the warning is no doing of the change, so the account stands as it was
    rintro reply _ ⟨g', hsame, rfl⟩
    obtain rfl : g = g' := hsame.symm
    show (Cluster.retire policy pools >>= fun _ => Plan.fail e).Keeps _ _
      (g, d.record (.store (.warn w)) reply)
    rw [Doings.record_warn]
    refine ⟨fun _ => horderly, ?_⟩
    rintro _ _ ⟨_, rfl, rfl⟩
    exact hpost

/-- How the opening of pools ends: a pool is open for each unit, or those that were opened before the
first failure have been handed over. -/
def OpensAll (units : SortedMap PoolProperties) (g : Generation) :
    Except Failure (SortedMap PoolId) → Generation × Doings → Prop
  | .ok all, s => ∃ l : UnitPools, units.entries = l.map (·.1) ∧ all.values = l.map (·.2)
    ∧ s = (g, .opened l)
  | .error f, s => ∃ (l : UnitPools) (unit : String) (properties : PoolProperties)
    (later : List (String × PoolProperties)) (e : Error),
    units.entries = l.map (·.1) ++ (unit, properties) :: later ∧ f = .error e
    ∧ s = (g, { openings := (Doings.opened l).openings ++ [((unit, properties), .error e)]
                retired := l.map (·.2) })

/-- **While the pools are opened**, `l` are those that are open, in the order of their units. -/
theorem keeps_openFrom_of_opened {policy : DrainPolicy} {units : SortedMap PoolProperties}
    {l : UnitPools} {later : List (String × PoolProperties)} {opened : SortedMap PoolId}
    (hunits : units.entries = l.map (·.1) ++ later)
    (hopened : opened.entries = l.map fun o => (o.1.1, o.2)) :
    (Switch.openFrom policy opened later).Keeps (attemptTerms change) (OpensAll units g)
      (g, .opened l) := by
  have hvalues : opened.values = l.map (·.2) := by
    rw [SortedMap.values, hopened, List.map_map]
    rfl
  -- by induction on the units that are left, of which the first one goes over to `l`
  induction later generalizing l opened with
  | nil => exact ⟨l, hunits.trans (List.append_nil _), hvalues, rfl⟩
  | cons e later ih =>
    obtain ⟨unit, properties⟩ := e
    unfold Switch.openFrom
    rw [keeps_bind]
    refine ⟨fun _ => .of_writes rfl, ?_⟩
    rintro (e | pool) _ ⟨_, rfl, rfl⟩
    -- what was opened so far is handed over
    · refine keeps_giveUp (.openFailed unit e) policy (.of_writes rfl) ?_
      refine ⟨l, unit, properties, later, e, hunits, rfl, ?_⟩
      rw [← hvalues]
      rfl
    -- the unit is above those before it, so its pool comes last
    · have hlast : ∀ e ∈ opened.entries, e.1 < unit := by
        intro e he
        rw [hopened] at he
        obtain ⟨o, ho, rfl⟩ := List.mem_map.1 he
        have hascending := units.ascending
        rw [hunits, List.pairwise_append] at hascending
        exact hascending.2.2 o.1 (List.mem_map_of_mem ho) _ List.mem_cons_self
      have hentries : (opened.insert unit pool).entries
          = (l ++ [((unit, properties), pool)]).map fun o => (o.1.1, o.2) := by
        calc (opened.insert unit pool).entries
            = opened.entries ++ [(unit, pool)] := SortedMap.entries_insert_of_lt hlast pool
          _ = (l ++ [((unit, properties), pool)]).map fun o => (o.1.1, o.2) := by
            rw [hopened, List.map_append]
            rfl
      have hopenings : ({ openings := (Doings.opened l).openings
          ++ [((unit, properties), .ok pool)] } : Doings)
          = .opened (l ++ [((unit, properties), pool)]) := by
        unfold Doings.opened
        rw [List.map_append]
        rfl
      show (Switch.openFrom policy (opened.insert unit pool) later).Keeps _ _
        (_, ({ openings := (Doings.opened l).openings ++ [((unit, properties), .ok pool)] } : Doings))
      rw [hopenings]
      refine ih ?_ hentries ?_
      · rw [hunits, List.map_append, List.append_assoc]
        rfl
      · rw [SortedMap.values, hentries, List.map_map]
        rfl

/-- **Opening the pools** opens all of them, or those before the first failure. -/
theorem keeps_openAll_of_opened (policy : DrainPolicy) (units : SortedMap PoolProperties) :
    (Switch.openAll policy units).Keeps (attemptTerms change) (OpensAll units g) (g, {}) := by
  have hnone : (g, ({} : Doings)) = (g, .opened []) := rfl
  rw [hnone]
  exact keeps_openFrom_of_opened (List.nil_append _).symm rfl

/-- How working out a change ends: with a diff that has its pools, or with an error. -/
def WorksOut (change : UnitChange) (g : Generation) (db : String) :
    Except Failure ResourceDiff → Generation × Doings → Prop
  | .ok diff, s => change.Admitted g db ∧ ∃ l : UnitPools,
    change.toOpen.entries = l.map (·.1) ∧ diff.opened.values = l.map (·.2) ∧ s = (g, .opened l)
  | .error f, s => ∃ e, f = .error e ∧ change.Fails g db e s.2 ∧ s.1 = g

/-- **Working out a change** that is admitted: whatever is made of the pools, the diff has them. -/
theorem worksOut_openAll (policy : DrainPolicy) (hadmitted : change.Admitted g db)
    {make : SortedMap PoolId → ResourceDiff} (hmake : ∀ opened, (make opened).opened = opened) :
    (Switch.openAll policy change.toOpen >>= fun opened => pure (make opened)).Keeps
      (attemptTerms change) (change.WorksOut g db) (g, {}) := by
  refine (keeps_openAll_of_opened policy change.toOpen).bind (fun opened s h => ?_) fun f s h => ?_
  · obtain ⟨l, hunits, hvalues, rfl⟩ := h
    refine ⟨hadmitted, l, hunits, ?_, rfl⟩
    rw [hmake, hvalues]
  · obtain ⟨l, unit, properties, later, e, hunits, rfl, rfl⟩ := h
    exact ⟨e, rfl, .notOpened hadmitted hunits, rfl⟩

/-- **Working out a change** opens its pools, or fails with an account of what it has done. -/
theorem keeps_diff_worksOut (policy : DrainPolicy) (change : UnitChange) {d : Database}
    (hdb : g.databases.get? db = some d) :
    (change.diff policy d.resource).Keeps (attemptTerms change) (change.WorksOut g db) (g, {}) := by
  cases change with
  | register units =>
    have hmem : ∀ name, name ∈ units.keys.filter d.resource.units.contains
        ↔ (register units).Adds name ∧ d.resource.units.contains name = true := fun name =>
      List.mem_filter.trans (and_congr_left' units.mem_keys_iff)
    have hduplicates : (register units).Duplicates d.resource
        (units.keys.filter d.resource.units.contains) := ⟨units.keys_ascending.filter _, hmem⟩
    show (Switch.register policy d.resource units).Keeps _ _ _
    unfold Switch.register
    dsimp only
    -- units that are there already are listed, in order, before any pool is opened
    split
    · rename_i hne
      exact ⟨_, rfl, .duplicates hdb hduplicates hne, rfl⟩
    · rename_i hnone
      rw [not_not.1 hnone] at hduplicates
      exact worksOut_openAll policy ⟨d, hdb, hduplicates⟩ fun _ => rfl
  | alter units => exact worksOut_openAll policy (.of_not_adds hdb fun _ => id) fun _ => rfl
  -- a removal opens nothing, so there is nothing to account for
  | unregister unit => exact ⟨.of_not_adds hdb fun _ => id, [], rfl, rfl, rfl⟩

/-- **Applying a change** whose pools are `l`. If it fails, then all that is left to be done is to hand
them over. -/
theorem keeps_apply_of_opened {l : UnitPools} {diff : ResourceDiff} (hadmitted : change.Admitted g db)
    (hunits : change.toOpen.entries = l.map (·.1)) :
    (change.apply db g diff).Keeps (attemptTerms change) (fun
      | .ok _, s => change.Ready s.2
      | .error .overflow, s => s.1 = g
      | .error (.error e), s => s.1 = g ∧ change.Orderly s.2
        ∧ ∀ policy, change.Fails g db e (s.2.record (.retire policy (l.map (·.2))) ()))
      (g, .opened l) := by
  have ⟨d, hdb, _⟩ := hadmitted
  refine keeps_apply_of_stages ⟨fun _ => .of_writes rfl, ?_⟩
  rintro reply _ ⟨_, ⟨hreply, rfl⟩, rfl⟩
  rw [keeps_ofResult]
  rcases hreply with hreply | ⟨e, rfl⟩
  · cases reply with
    | error f =>
      obtain rfl := diff.eq_overflow_of_rebuild hdb hreply.symm
      exact rfl
    | ok reload =>
      obtain ⟨changed, hchanged⟩ := diff.database_of_rebuild hdb hreply.symm
      have hready : change.Ready { Doings.opened l with builds := [.ok reload] } :=
        ⟨⟨l, hunits, rfl⟩, reload, rfl⟩
      dsimp only
      rw [hchanged]
      -- everything is ready, so each call of the repository may be a write
      refine keeps_access_of_ready hready fun result writes => ?_
      rcases result with (e | _) | _
      · exact ⟨rfl, fun _ => hready, fun _ => .notWritten hadmitted hunits⟩
      -- an overflow while it is written is passed on
      · exact rfl
      · refine ⟨fun _ _ => hready, fun reply s' hs' => ?_⟩
        cases reply with
        | error f =>
          -- only the number can overflow, and then nothing is installed
          obtain ⟨_, ⟨rfl, rfl⟩, rfl⟩ := hs'
          exact rfl
        | ok g' =>
          obtain ⟨_, -, rfl⟩ := hs'
          exact hready
  · exact ⟨rfl, .of_writes rfl, fun _ => .notBuilt hadmitted hunits⟩

/-- **A change** ends as it should, whatever fails. -/
theorem keeps_switchUnits_concludes (service : Service) (db : String) (change : UnitChange)
    (g : Generation) :
    (service.switchUnits db change).Keeps (attemptTerms change) (change.Concludes g db) (g, {}) := by
  refine service.keeps_switchUnits_of_stages ⟨fun _ => .of_writes rfl, ?_⟩
  rintro current _ ⟨g', ⟨hcurrent, hsame⟩, rfl⟩
  obtain rfl : g = current := hcurrent.symm
  obtain rfl : g = g' := hsame.symm
  rw [keeps_done]
  dsimp only
  cases hdb : g.databases.get? db with
  | none => exact ⟨.unknown hdb, rfl⟩
  | some d =>
    refine (keeps_diff_worksOut service.drain change hdb).mono fun result s h => ?_
    cases result with
    | ok diff =>
      obtain ⟨hadmitted, l, hunits, hvalues, rfl⟩ := h
      refine (keeps_apply_of_opened hadmitted hunits).mono fun result s h => ?_
      obtain ⟨g', doings⟩ := s
      rcases result with (e | _) | _
      -- the error is passed on when the opened pools have been handed over
      · obtain ⟨hsame, horderly, hfails⟩ := h
        obtain rfl : g = g' := hsame.symm
        refine keeps_giveUp (.unitChangeFailed db e) service.drain horderly ⟨?_, rfl⟩
        rw [hvalues]
        exact hfails service.drain
      · exact ⟨hadmitted, h⟩
      · refine ⟨fun _ _ => h, ?_⟩
        rintro _ _ ⟨_, rfl, rfl⟩
        exact ⟨hadmitted, h⟩
    | error f =>
      obtain ⟨e, rfl, hfails⟩ := h
      exact hfails

/-- **A change that fails leaves the current generation alone**, wherever it fails and whatever others
do meanwhile. The account of what it has done by then is known in full (`Fails`), and the pools that it
has opened are handed over, each of them once. At every moment, also before the change is over, it has
written something only if all pools were open and the generation was built, and a change that succeeds
was admitted and has come that far. A change that adds a unit that is there already fails before it does
anything, and its error tells all such units. -/
theorem fails_cleanly (service : Service) (db : String) (change : UnitChange) (stage : Stage)
    (moves : List AttemptMove) :
    let final := UnitAttempt.after { stage, rest := service.switchUnits db change } moves
    change.Orderly final.doings ∧ final.doings.pools.Nodup
      ∧ (final.result? = some (.ok ()) →
        change.Admitted stage.generation db ∧ change.Ready final.doings)
      ∧ (∀ f, final.result? = some (.error f) → final.stage.generation = stage.generation)
      ∧ (∀ e, final.result? = some (.error (.error e)) →
        change.Fails stage.generation db e final.doings ∧ final.doings.retired = final.doings.pools)
      ∧ ∀ d name, stage.generation.databases.get? db = some d → change.Adds name →
        d.resource.units.contains name = true → ∀ result, final.result? = some result →
        ∃ names, change.Duplicates d.resource names
          ∧ result = .error (.error (.duplicateUnits names)) ∧ final.doings = {} := by
  intro final
  -- the invariant holds before the first move: nothing is done, and all of the change is ahead
  have hstart : UnitAttempt.Underway change stage.generation db
      { stage, rest := service.switchUnits db change } :=
    ⟨keeps_switchUnits_concludes service db change stage.generation, .of_writes rfl, .nil,
      fun _ h => absurd h List.not_mem_nil⟩
  have hfinal : UnitAttempt.Underway change stage.generation db final := hstart.after moves
  refine ⟨hfinal.orderly, hfinal.numbered.1.imp Nat.ne_of_lt, fun hresult => hfinal.concludes hresult,
    fun f hresult => ?_, fun e hresult => ?_, fun d name hdb hadds hunit result hresult => ?_⟩
  · have hends := hfinal.concludes hresult
    cases f with
    | error e => exact hends.2
    | overflow => exact hends.2
  · exact ⟨(hfinal.concludes hresult).1, (hfinal.concludes hresult).1.retired_eq⟩
  · exact (hfinal.concludes hresult).duplicates hdb hadds hunit

/-! ### Three units -/

/-- Units of these names. -/
def unitsNamed (names : List String) : SortedMap PoolProperties :=
  .ofList (names.map fun name => (name, { url := name, username := "n" }))

/-- A database that has a unit `b`. -/
def unitDatabase : Database := { name := "d", resource.units := Resource.unitsOf (unitsNamed ["b"]) }

/-- The registration of three units. -/
def threeUnits : UnitChange := .register (unitsNamed ["a", "b", "c"])

/-- The registration on a node. -/
def threeUnitsRun (stage : Stage) (moves : List AttemptMove) : UnitAttempt :=
  UnitAttempt.after { stage, rest := bareService.switchUnits "d" threeUnits } moves

/-- Time passes. -/
def timePasses : Aside where
  change s := { s with clock := s.clock + 1 }
  generation_change _ := rfl
  pools_change _ := Nat.le_refl _

/-- After some time, the pool of the second unit does not open. -/
def secondRefused : List AttemptMove :=
  [.next none, .next none, .meanwhile timePasses, .next (some (.unitNotOpened "b" "refused")),
    .next none, .next none]

/-- A node with the database that has a unit `b`. -/
def unitStage : Stage :=
  { bareStage with generation := { databases := .ofList [("d", unitDatabase)] } }

/-- If the pool of `b` does not open, then that of `a` is handed over. Where `b` is there already,
nothing at all is done. -/
theorem fails_cleanly_second_unit :
    let refused := threeUnitsRun bareStage secondRefused
    let repeated := threeUnitsRun unitStage [.next none]
    (refused.result? = some (.error (.error (.unitNotOpened "b" "refused")))
        ∧ refused.doings.retired = [0] ∧ refused.stage.generation = bareStage.generation
        ∧ threeUnits.Fails bareStage.generation "d" (.unitNotOpened "b" "refused") refused.doings)
      ∧ repeated.result? = some (.error (.error (.duplicateUnits ["b"])))
        ∧ repeated.doings = {} := by
  intro refused repeated
  -- the opening of the second unit is refused, after the first one has its pool
  have hrefused : refused.result? = some (.error (.error (.unitNotOpened "b" "refused")))
      ∧ refused.doings.retired = [0] := by
    decide +kernel
  obtain ⟨hresult, hretired⟩ := hrefused
  obtain ⟨-, -, -, hgeneration, hfails, -⟩ :=
    fails_cleanly bareService "d" threeUnits bareStage secondRefused
  refine ⟨⟨hresult, hretired, hgeneration _ hresult, (hfails _ hresult).1⟩, ?_⟩
  -- on a stage that has unit b, nothing is opened in the first place
  have hrepeated : repeated.result? = some (.error (.error (.duplicateUnits ["b"]))) := by
    decide +kernel
  obtain ⟨-, -, -, -, -, hadded⟩ := fails_cleanly bareService "d" threeUnits unitStage [.next none]
  have hadds : threeUnits.Adds "b" := show (unitsNamed ["a", "b", "c"]).contains "b" = true by decide
  obtain ⟨-, -, -, hnothing⟩ := hadded unitDatabase "b" rfl hadds (by decide) _ hrepeated
  exact ⟨hrepeated, hnothing⟩

end UnitChange

end ClusterCatalog
