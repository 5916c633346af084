import ClusterCatalog.Proofs.Cluster.Effect
import ClusterCatalog.Proofs.Cluster.Reload

/-!
# A reload that overtakes a change of storage units

A change of storage units takes the current generation when it starts, opens its pools, writes what
has changed, and installs its database. Only the opening of pools takes time, and in this time the
node may load the database anew, with other rules and other schemas. `UnitRun` is a change under way,
with such reloads in between.

Which rules and schemas does the database have in the end? The database that is installed was worked
out from the generation at the start, and it replaces whatever entry is there by then. So every reload
that came in between is lost, and the last one is kept only if it has changed nothing
(`UnitChange.combines_reload_iff`).

The argument is made on the terms of a node on which only the database is looked at
(`overtakenTerms`). When a pool is opened, the database may have become any other one with the same
resource.
-/

namespace ClusterCatalog

open Plan

/-! ### Pools of a changed resource -/

namespace UnitChange

variable {r : Resource} {change : UnitChange} {diff : ResourceDiff} {name : String}

/-- A change has nothing to do with the pools of units that it does not set. -/
theorem Yields.untouched (h : Yields r change diff) (hnamed : r.SelfNamed)
    (hname : change.sets name = none) :
    diff.opened.contains name = false ∧ diff.stale.contains name = false := by
  have hnot : ∀ units : SortedMap PoolProperties,
      (units.get? name).map (UnitState.present name) = none → units.contains name = false := by
    intro units hunits
    rw [SortedMap.contains, Option.map_eq_none_iff.1 hunits]
    rfl
  -- a pool that is given up is one of the units that are named
  have hstale : ∀ names, name ∉ names → (ResourceDiff.poolsOf r names).contains name = false :=
    fun names hnames => Bool.eq_false_iff.2 fun h =>
      hnames (ResourceDiff.mem_of_poolsOf_contains hnamed h)
  cases h with
  | @register units opened hnew hopened => exact ⟨(hopened name).trans (hnot units hname), rfl⟩
  | @alter units opened hopened =>
    have hunit := hnot units hname
    refine ⟨(hopened name).trans hunit, hstale units.keys ?_⟩
    rw [SortedMap.mem_keys_iff, hunit]
    exact Bool.false_ne_true
  | unregister unit =>
    refine ⟨rfl, hstale (ResourceDiff.present r [unit]) fun hmem => ?_⟩
    rw [sets_unregister, if_pos (List.mem_singleton.1 (ResourceDiff.mem_present_iff.1 hmem).2)] at hname
    cases hname

/-- **A unit that a change has nothing to do with** keeps its pool. -/
theorem Yields.poolOf?_of_sets_eq_none (h : Yields r change diff) (hnamed : r.SelfNamed)
    (hname : change.sets name = none) : (diff.applyTo r).poolOf? name = r.poolOf? name := by
  obtain ⟨hopened, hstale⟩ := h.untouched hnamed hname
  have hunits : (diff.applyTo r).units.get? name = r.units.get? name := by
    rw [(h.unit_applyTo hnamed name).1, hname]
    rfl
  have hpools : (diff.applyTo r).pools.get? name = r.pools.get? name := by
    have hnone : diff.opened.get? name = none := by simpa [SortedMap.contains] using hopened
    rw [ResourceDiff.get?_pools_applyTo, hnone, hstale]
    rfl
  rw [ResourceDiff.poolOf?_eq (ResourceDiff.selfNamed_applyTo diff r), hunits,
    ResourceDiff.poolOf?_eq hnamed, hpools]

/-- **The pool of a unit that a change sets** was opened for it. -/
theorem Yields.opened_of_poolOf? (h : Yields r change diff) {u : UnitState} {pool : PoolId}
    (hname : change.sets name = some u) (hpool : (diff.applyTo r).poolOf? name = some pool) :
    diff.opened.get? name = some pool := by
  have hopen : ∀ (units : SortedMap PoolProperties),
      (units.get? name).map (UnitState.present name) = some u →
      (∀ node, diff.opened.contains node = units.contains node) → diff.opened.get? name = some pool := by
    intro units hunits hopened
    obtain ⟨properties, hget, -⟩ := Option.map_eq_some_iff.1 hunits
    obtain ⟨found, hfound⟩ := SortedMap.contains_iff.1
      ((hopened name).trans (SortedMap.contains_iff.2 ⟨properties, hget⟩))
    rw [ResourceDiff.poolOf?_eq (ResourceDiff.selfNamed_applyTo diff r), Option.bind_eq_some_iff] at hpool
    obtain ⟨unit, -, hpool⟩ := hpool
    rw [ResourceDiff.get?_pools_applyTo, hfound] at hpool
    exact hfound.trans hpool
  cases h with
  | @register units opened hnew hopened => exact hopen units hname hopened
  | @alter units opened hopened => exact hopen units hname hopened
  | unregister unit =>
    -- a unit that is taken out has no pool
    rw [sets_unregister] at hname
    split at hname
    · rename_i heq
      have hgone := ResourceDiff.get?_merged_unregister r unit name
      rw [if_pos heq] at hgone
      rw [(ResourceDiff.unit_applyTo_of_none hgone).2] at hpool
      cases hpool
    · cases hname

end UnitChange

/-! ### A change under way -/

/-- **A move**: the node loads the database anew, or the change makes its next request. A call of the
repository may be refused, a pool may not open, and no generation may be built. -/
inductive UnitMove where
  | reload (rules : RuleSet) (schemas : Schemas)
  | next (refusal : Option String)

/-- **A change of storage units under way**, with the entries of its database that the node has
installed in the meantime. -/
structure UnitRun extends RuleRun where
  reloads : List Database := []

namespace UnitRun

/-- Whether a pool is being opened. Only then something else can happen. -/
def isOpening (run : UnitRun) : Bool :=
  match run.rest with
  | .ask (.openPool ..) _ => true
  | _ => false

/-- The run after the node has installed the database with other rules and schemas. Where the database
is unknown, or the number of the generation overflows, nothing is installed. -/
def reload (db : String) (rules : RuleSet) (schemas : Schemas) (run : UnitRun) : UnitRun :=
  match run.stage.generation.databases.get? db with
  | none => run
  | some d =>
    let loaded := { d with rules, schemas }
    match run.stage.installDatabase loaded with
    | (.ok _, stage) => { run with stage, reloads := run.reloads ++ [loaded] }
    | (.error _, _) => run

/-- The run after a move. -/
def step (db : String) (run : UnitRun) : UnitMove → UnitRun
  | .reload rules schemas => if run.isOpening then run.reload db rules schemas else run
  | .next refusal => { run with toRuleRun := run.toRuleRun.step (.next refusal) }

/-- The run after all moves. -/
def after (db : String) (run : UnitRun) (moves : List UnitMove) : UnitRun := moves.foldl (step db) run

end UnitRun

/-! ### What a change sees of the database -/

/-- **The entry of a database with a resource**, whatever its rules and schemas are. -/
def HasResource (db : String) (r : Resource) (entry : Option Database) : Prop :=
  ∃ d, entry = some d ∧ d.name = db ∧ d.resource = r

/-- **The terms of a change that is overtaken.** Until the change installs its database, the entry has
the resource `r`. While a pool is opened it can be replaced by another one with this resource. Pools
that are opened have numbers from `first` on. -/
def overtakenTerms (db : String) (r : Resource) (first : PoolId) :
    Terms clusterInterface (Option Database) where
  Owed
    | .openPool .., entry => HasResource db r entry
    | .installDatabase d, _ => d.name = db
    | _, _ => True
  Answers
    | .current, entry, g, entry' => g.databases.get? db = entry ∧ entry' = entry
    | .build name isNew diff before, entry, reply, entry' =>
      (reply = diff.rebuild name isNew before ∨ ∃ e, reply = .error (.error e)) ∧ entry' = entry
    | .openPool .., _, reply, entry' =>
      HasResource db r entry' ∧ ∀ pool, reply = .ok pool → first ≤ pool
    | .installDatabase d, _, reply, entry' => ∀ g, reply = .ok g → entry' = some d
    | _, entry, _, entry' => entry' = entry

namespace UnitRun

variable {db : String} {r : Resource} {first : PoolId}
  {post : Except Failure Unit → Option Database → Prop} {run : UnitRun}

/-- The entry of the database. -/
def entry (db : String) (run : UnitRun) : Option Database := run.stage.generation.databases.get? db

/-- **A request of a change under way** is answered on these terms. -/
theorem answers_next (refusal : Option String) {s : Stage} (hfirst : first ≤ s.pools.length)
    {request : ClusterRequest}
    (howed : (overtakenTerms db r first).Owed request (s.generation.databases.get? db)) :
    let answered := Stage.answerUnless (refusal.map .repository) request s
    (overtakenTerms db r first).Answers request (s.generation.databases.get? db) answered.1
        (answered.2.generation.databases.get? db)
      ∧ first ≤ answered.2.pools.length := by
  intro answered
  have hled := s.leadsTo_answerUnless (refusal.map .repository) request
  change s.LeadsTo _ request answered at hled
  clear_value answered
  cases hled with
  | answered call =>
    obtain ⟨hgeneration, hpools⟩ := s.answerStore_frame call
    show (Stage.answerStore call s).2.generation.databases.get? db = _
      ∧ first ≤ (Stage.answerStore call s).2.pools.length
    rw [hgeneration, hpools]
    exact ⟨rfl, hfirst⟩
  | current => exact ⟨⟨rfl, rfl⟩, hfirst⟩
  | built name isNew diff before => exact ⟨⟨.inl rfl, rfl⟩, hfirst⟩
  | notBuilt name isNew diff before e => exact ⟨⟨.inr ⟨e, rfl⟩, rfl⟩, hfirst⟩
  | opened unit properties =>
    -- the new pool has the next number
    refine ⟨⟨howed, fun pool hpool => ?_⟩, ?_⟩
    · obtain rfl : s.pools.length = pool := Except.ok.inj hpool
      exact hfirst
    · show first ≤ (s.pools ++ _).length
      rw [List.length_append]
      exact Nat.le_add_right_of_le hfirst
  | notOpened unit properties e => exact ⟨⟨howed, fun _ h => by cases h⟩, hfirst⟩
  | @installed d g hg =>
    obtain rfl : d.name = db := howed
    refine ⟨fun _ _ => ?_, hfirst⟩
    show g.databases.get? d.name = some d
    rw [Generation.databases_of_succeededBy hg, SortedMap.get?_insert_self]
  | notInstalled d => exact ⟨fun _ h => (by cases h), hfirst⟩
  | _ => exact ⟨rfl, hfirst⟩

/-- **The invariant of a change under way**: what is left of it keeps to its terms, and the entries
that were installed in the meantime have its resource. -/
structure Overtaken (db : String) (r : Resource) (first : PoolId)
    (post : Except Failure Unit → Option Database → Prop) (run : UnitRun) : Prop where
  keeps : run.rest.Keeps (overtakenTerms db r first) post (run.entry db)
  fresh : first ≤ run.stage.pools.length
  reloads : ∀ d ∈ run.reloads, d.resource = r

/-- While a pool is opened, the entry may be replaced by one with the same resource. -/
theorem Overtaken.reload (h : run.Overtaken db r first post) (hopening : run.isOpening = true)
    (rules : RuleSet) (schemas : Schemas) : (run.reload db rules schemas).Overtaken db r first post := by
  obtain ⟨hkeeps, hfirst, hreloads⟩ := h
  obtain ⟨⟨s, rest⟩, reloads⟩ := run
  cases rest with
  | done a => cases hopening
  | stop f => cases hopening
  | ask request k =>
    cases request with
    | openPool unit properties =>
      obtain ⟨⟨d, hd, hname, hresource⟩, hnext⟩ := hkeeps
      change s.generation.databases.get? db = some d at hd
      unfold UnitRun.reload Stage.installDatabase
      dsimp only
      rw [hd]
      dsimp only
      cases hg : s.generation.succeededBy { d with rules, schemas } with
      | error f => exact ⟨⟨⟨d, hd, hname, hresource⟩, hnext⟩, hfirst, hreloads⟩
      | ok g =>
        -- the entry gets other rules and schemas, and what is owed is only about its resource
        refine ⟨⟨⟨{ d with rules, schemas }, ?_, hname, hresource⟩, hnext⟩, hfirst, fun x hx => ?_⟩
        · show g.databases.get? db = _
          rw [Generation.databases_of_succeededBy hg, ← hname, SortedMap.get?_insert_self]
        · rcases List.mem_append.1 hx with hx | hx
          · exact hreloads x hx
          · obtain rfl := List.mem_singleton.1 hx
            exact hresource
    | _ => cases hopening

/-- **One move** keeps the invariant. -/
theorem Overtaken.step (h : run.Overtaken db r first post) (move : UnitMove) :
    (run.step db move).Overtaken db r first post := by
  cases move with
  | reload rules schemas =>
    unfold UnitRun.step
    dsimp only
    split
    · -- a reload comes in only while a pool is being opened
      rename_i hopening
      exact h.reload hopening rules schemas
    · exact h
  | next refusal =>
    obtain ⟨hkeeps, hfirst, hreloads⟩ := h
    obtain ⟨⟨s, rest⟩, reloads⟩ := run
    -- a finished operation stays as it is
    cases rest with
    | done a => exact ⟨hkeeps, hfirst, hreloads⟩
    | stop f => exact ⟨hkeeps, hfirst, hreloads⟩
    | ask request k =>
      obtain ⟨hanswers, hfirst'⟩ := answers_next refusal hfirst hkeeps.1
      exact ⟨hkeeps.2 _ _ hanswers, hfirst', hreloads⟩

theorem Overtaken.after (h : run.Overtaken db r first post) (moves : List UnitMove) :
    (run.after db moves).Overtaken db r first post := by
  induction moves generalizing run with
  | nil => exact h
  | cons move moves ih => exact ih (h.step move)

/-- **A change that is over** has reached its postcondition. -/
theorem Overtaken.post_of_result? (h : run.Overtaken db r first post) {result : Except Failure Unit}
    (hresult : run.result? = some result) : post result (run.entry db) := by
  obtain ⟨hkeeps, -, -⟩ := h
  obtain ⟨⟨s, rest⟩, reloads⟩ := run
  cases rest with
  | done a => cases hresult; exact hkeeps
  | stop f => cases hresult; exact hkeeps
  | ask request k => cases hresult

end UnitRun

/-! ### What a change makes of the database -/

namespace UnitChange

variable {db : String} {r : Resource} {first : PoolId} {entry : Option Database}

/-- An operation on the repository leaves the database alone. -/
theorem keeps_access_of_overtaken {α : Type} {post : Except Failure α → Option Database → Prop}
    {p : Access α} (h : ∀ result, post result entry) :
    (Cluster.access p).Keeps (overtakenTerms db r first) post entry := by
  unfold Cluster.access
  induction p with
  | done a => exact h _
  | stop f => exact h _
  | ask request k ih =>
    refine ⟨trivial, ?_⟩
    rintro reply _ rfl
    exact ih reply

/-- **While the pools are opened**, the entry keeps its resource, and every pool is a new one. -/
theorem keeps_openFrom_of_overtaken {policy : DrainPolicy} {l : List (String × PoolProperties)}
    {opened : SortedMap PoolId} (hentry : HasResource db r entry)
    (hopened : ∀ node pool, opened.get? node = some pool → first ≤ pool) :
    (Switch.openFrom policy opened l).Keeps (overtakenTerms db r first) (fun result entry' =>
      ∀ all, result = .ok all →
        HasResource db r entry' ∧ ∀ node pool, all.get? node = some pool → first ≤ pool) entry := by
  induction l generalizing opened entry with
  | nil =>
    -- all are open, and the entry is the one of the last reload in between
    rintro all h
    cases h
    exact ⟨hentry, hopened⟩
  | cons e l ih =>
    obtain ⟨unit, properties⟩ := e
    unfold Switch.openFrom
    rw [keeps_bind]
    refine ⟨hentry, ?_⟩
    rintro (e | pool) entry' ⟨hentry', hpool⟩
    · -- the pools opened so far are given back, and no diff comes of it
      show (Cluster.warn _ >>= _).Keeps _ _ _
      rw [keeps_bind]
      refine keeps_access_of_overtaken fun result => ?_
      cases result with
      | error f => exact fun _ h => by cases h
      | ok _ => exact ⟨trivial, fun _ _ _ _ h => by cases h⟩
    · -- the new pool has a number from the first one on, like those before it
      refine ih hentry' fun node other hother => ?_
      rw [SortedMap.get?_insert] at hother
      split at hother
      · obtain rfl := Option.some.inj hother
        exact hpool _ rfl
      · exact hopened node other hother

/-- **Working out a change** leaves the resource of the entry alone and yields a diff with new pools. -/
theorem keeps_diff_of_overtaken {policy : DrainPolicy} (change : UnitChange)
    (hentry : HasResource db r entry) :
    (change.diff policy r).Keeps (overtakenTerms db r first) (fun result entry' =>
      ∀ diff, result = .ok diff → HasResource db r entry' ∧ Yields r change diff
        ∧ ∀ node pool, diff.opened.get? node = some pool → first ≤ pool) entry := by
  have hnone : ∀ node pool, (∅ : SortedMap PoolId).get? node = some pool → first ≤ pool :=
    fun _ _ h => by cases h
  have hpools : (change.diff policy r).Keeps (overtakenTerms db r first) (fun result entry' =>
      ∀ diff, result = .ok diff → HasResource db r entry'
        ∧ ∀ node pool, diff.opened.get? node = some pool → first ≤ pool) entry := by
    refine diff_rule (motive := fun p => p.Keeps _ _ entry) policy change r (fun _ _ h => by cases h)
      fun units make hmake => ?_
    refine (keeps_openFrom_of_overtaken hentry hnone).bind (fun opened entry' h => ?_)
      fun f entry' _ _ h => by cases h
    rintro diff hdiff
    cases hdiff
    rw [hmake]
    exact h opened rfl
  -- that the diff is one of the change is true on any terms
  refine (hpools.and_any (diff_yields change r)).mono fun result entry' h diff hdiff => ?_
  exact ⟨(h.1 diff hdiff).1, h.2 diff hdiff, (h.1 diff hdiff).2⟩

/-- **What a change installs**: the database of the generation at its start, with the changed
resource. -/
def Installs (change : UnitChange) (before : Database) (first : PoolId) :
    Except Failure Unit → Option Database → Prop
  | .ok _, entry => ∃ diff, Yields before.resource change diff
    ∧ (∀ node pool, diff.opened.get? node = some pool → first ≤ pool)
    ∧ entry = some { before with resource := diff.applyTo before.resource }
  | .error _, _ => True

/-- **Applying a change** installs the database of the generation that it is given. -/
theorem keeps_apply_of_overtaken (change : UnitChange) {before : Database} {g : Generation}
    {diff : ResourceDiff} (hbefore : g.databases.get? db = some before) (hname : before.name = db) :
    (change.apply db g diff).Keeps (overtakenTerms db r first) (fun result entry' =>
      result = .ok () → entry' = some { before with resource := diff.applyTo before.resource })
      entry := by
  refine keeps_apply_of_stages ⟨trivial, ?_⟩
  rintro reply _ ⟨hreply, rfl⟩
  rw [keeps_ofResult]
  rcases hreply with rfl | ⟨e, rfl⟩
  · rcases rebuild_cases diff hbefore hname with hreload | ⟨reload, hreload, hchanged⟩
    · rw [hreload]
      exact fun h => by cases h
    · -- the reload is built from the generation of the start, not from the current one
      rw [hreload]
      dsimp only
      rw [hchanged]
      refine keeps_access_of_overtaken fun result => ?_
      cases result with
      | error f => exact fun h => by cases h
      | ok _ =>
        refine ⟨hname, fun reply entry' hentry' => ?_⟩
        cases reply with
        | error f => exact fun h => by cases h
        | ok g' => exact fun _ => hentry' g' rfl
  · -- the generation was not built
    exact fun h => by cases h

/-- **A change that is overtaken** installs its database all the same. -/
theorem keeps_switchUnits_of_overtaken (service : Service) (change : UnitChange) {before : Database}
    (hname : before.name = db) :
    (service.switchUnits db change).Keeps (overtakenTerms db before.resource first)
      (change.Installs before first) (some before) := by
  refine service.keeps_switchUnits_of_stages ⟨trivial, ?_⟩
  rintro g _ ⟨hg, rfl⟩
  rw [keeps_done]
  dsimp only
  rw [hg]
  refine (change.keeps_diff_of_overtaken ⟨before, rfl, hname, rfl⟩).mono fun result entry h => ?_
  cases result with
  | error f => trivial
  | ok diff =>
    obtain ⟨-, hyields, hnew⟩ := h diff rfl
    refine (change.keeps_apply_of_overtaken hg hname).mono fun result entry' hentry' => ?_
    rcases result with (e | _) | _
    -- a change that fails promises nothing
    · show (Cluster.warn _ >>= fun _ => Cluster.retire _ _ >>= fun _ => Plan.fail e).Keeps _ _ _
      exact ⟨trivial, fun _ _ _ => ⟨trivial, fun _ _ _ => trivial⟩⟩
    · trivial
    · refine ⟨trivial, ?_⟩
      rintro _ _ rfl
      exact ⟨diff, hyields, hnew, hentry' rfl⟩

/-! ### A change and a reload -/

/-- **What a change and a reload make of a database together**: it has the rules and the schemas of the
reload, the units of the change have the properties that the change gives them and pools with numbers
from `first` on, and all other units are as in the reload. -/
structure Combines (change : UnitChange) (first : PoolId) (reload after : Database) : Prop where
  rules : after.rules = reload.rules
  schemas : after.schemas = reload.schemas
  units : ∀ name, after.resource.units.get? name
    = ((change.sets name).map (·.live)).getD (reload.resource.units.get? name)
  kept : ∀ name, change.sets name = none →
    after.resource.poolOf? name = reload.resource.poolOf? name
  opened : ∀ name u, change.sets name = some u →
    (after.resource.poolOf? name).isSome = u.pooled
      ∧ ∀ pool, after.resource.poolOf? name = some pool → first ≤ pool

/-- **A change keeps the last reload that has overtaken it if the reload has changed nothing, and only
then.** The change succeeds, whatever was refused. Then the database has the rules and the schemas
that it had when the change was started, together with the changed units and pools; so it has those of
the last reload exactly if they are the same. -/
theorem combines_reload_iff (service : Service) (change : UnitChange) (db : String) (stage : Stage)
    (moves : List UnitMove) (before : Database)
    (hbefore : stage.generation.databases.get? db = some before) (hname : before.name = db)
    (hnamed : before.resource.SelfNamed)
    (hok : (UnitRun.after db { stage, rest := service.switchUnits db change } moves).result?
      = some (.ok ())) :
    let final := UnitRun.after db { stage, rest := service.switchUnits db change } moves
    ∃ after, final.entry db = some after
      ∧ change.Combines stage.pools.length before after
      ∧ ∀ last, final.reloads.getLast? = some last →
        (change.Combines stage.pools.length last after
          ↔ last.rules = before.rules ∧ last.schemas = before.schemas) := by
  intro final
  have hstart : UnitRun.Overtaken db before.resource stage.pools.length
      (change.Installs before stage.pools.length) { stage, rest := service.switchUnits db change } := by
    refine ⟨?_, Nat.le_refl _, fun _ h => absurd h List.not_mem_nil⟩
    show (service.switchUnits db change).Keeps _ _ (stage.generation.databases.get? db)
    rw [hbefore]
    exact change.keeps_switchUnits_of_overtaken service hname
  have hfinal := hstart.after moves
  obtain ⟨diff, hyields, hnew, hentry⟩ := hfinal.post_of_result? hok
  -- the units and pools come out as they should, whatever the reload
  have hcombines : ∀ reload : Database, reload.resource = before.resource →
      (change.Combines stage.pools.length reload
          { before with resource := diff.applyTo before.resource }
        ↔ before.rules = reload.rules ∧ before.schemas = reload.schemas) := by
    intro reload hreload
    refine ⟨fun h => ⟨h.rules, h.schemas⟩, fun ⟨hrules, hschemas⟩ => ⟨hrules, hschemas, ?_, ?_, ?_⟩⟩
    · intro name
      rw [hreload]
      exact (hyields.unit_applyTo hnamed name).1
    · intro name hsets
      rw [hreload]
      exact hyields.poolOf?_of_sets_eq_none hnamed hsets
    · intro name u hsets
      refine ⟨?_, fun pool hpool => hnew name pool (hyields.opened_of_poolOf? hsets hpool)⟩
      rw [(hyields.unit_applyTo hnamed name).2, hsets]
      rfl
  refine ⟨_, hentry, (hcombines before rfl).2 ⟨rfl, rfl⟩, fun last hlast => ?_⟩
  rw [hcombines last (hfinal.reloads last (List.mem_of_getLast? hlast))]
  exact and_congr eq_comm eq_comm

/-! ### One unit -/

/-- A node with one database, which has no units yet. -/
def bareStage : Stage :=
  { repository := .memory ⟨∅⟩, generation := { databases := .ofList [("d", .empty "d")] } }

/-- The registration of a unit. -/
def oneUnit : UnitChange := .register (.ofList [("a", { url := "u", username := "n" })])

/-- The service of the node. -/
def bareService : Service := ⟨500, ⟨1, 1⟩, fun _ _ => .done ()⟩

/-- While the pool is opened, the database is loaded with each of the given rules and schemas in turn. -/
def overtaking (reloads : List (List Rule × Schemas)) : List UnitMove :=
  [.next none] ++ (reloads.map fun e => .reload (.ofList e.1) e.2) ++ List.replicate 16 (.next none)

/-- The registration with these reloads in between. -/
def overtakenRun (reloads : List (List Rule × Schemas)) : UnitRun :=
  UnitRun.after "d" { stage := bareStage, rest := bareService.switchUnits "d" oneUnit }
    (overtaking reloads)

/-- The first reload brings a rule, and the last one takes it away again: that one is kept. -/
theorem combines_reload_iff_taken_back :
    let run := overtakenRun [([.named ⟨"r", ∅⟩], ∅), ([], ∅)]
    run.result? = some (.ok ()) ∧ ∃ last after, run.reloads.getLast? = some last
      ∧ run.entry "d" = some after ∧ oneUnit.Combines 0 last after := by
  intro run
  have hrun : run.result? = some (.ok ()) ∧ (run.reloads.getLast?.map fun last =>
      (last.rules.byName.keys, last.schemas)) = some ([], ∅) := by
    decide +kernel
  obtain ⟨hok, hreload⟩ := hrun
  obtain ⟨last, hlast, hsame⟩ := Option.map_eq_some_iff.1 hreload
  obtain ⟨hrules, hschemas⟩ := Prod.mk.inj hsame
  obtain ⟨after, hafter, -, hiff⟩ := combines_reload_iff bareService oneUnit "d" bareStage
    (overtaking [([.named ⟨"r", ∅⟩], ∅), ([], ∅)]) (.empty "d") rfl rfl (fun _ _ h => by cases h) hok
  -- the last reload has no rules, like the entry that the operation started from
  have hnone : last.rules.byName = ∅ := by
    refine SortedMap.ext fun key => Option.not_isSome_iff_eq_none.1 fun h => ?_
    have hkey := (SortedMap.mem_keys_iff last.rules.byName).2 h
    rw [hrules] at hkey
    exact List.not_mem_nil hkey
  exact ⟨hok, last, after, hlast, hafter, (hiff last hlast).2 ⟨congrArg RuleSet.mk hnone, hschemas⟩⟩

/-- **A reload that overtakes a change can be lost.** While a unit is registered, the database is
loaded with a rule and a schema. The change succeeds, and afterwards the schema is gone. -/
theorem reload_not_always_kept :
    let run := overtakenRun [([.named ⟨"r", ∅⟩], .ofList [("s", { name := "s" })])]
    run.result? = some (.ok ()) ∧ ∃ last after, run.reloads.getLast? = some last
      ∧ run.entry "d" = some after ∧ last.schemas.contains "s" = true
      ∧ after.schemas.contains "s" = false ∧ ¬ oneUnit.Combines 0 last after := by
  intro run
  have hrun : run.result? = some (.ok ())
      ∧ (run.reloads.getLast?.map fun last => last.schemas.contains "s") = some true
      ∧ ((run.entry "d").map fun after => after.schemas.contains "s") = some false := by
    decide +kernel
  obtain ⟨hok, hreload, hentry⟩ := hrun
  obtain ⟨last, hlast, hloaded⟩ := Option.map_eq_some_iff.1 hreload
  obtain ⟨after, hafter, hlost⟩ := Option.map_eq_some_iff.1 hentry
  -- the schema that the reload brought is not in the entry that was put together
  refine ⟨hok, last, after, hlast, hafter, hloaded, hlost, fun h => ?_⟩
  rw [h.schemas, hloaded] at hlost
  cases hlost

end UnitChange

end ClusterCatalog
