import ClusterCatalog.Proofs.Store.Access
import ClusterCatalog.Simulation.Stage

/-!
# What the requests of an operation leave alone

Faults decide which calls of the repository are refused, but not what a call does that is not refused
(`Stage.answerStore_answers`). Neither a call nor a hand-over touches the current generation or the
pools (`Stage.answerStore_frame`, `Stage.retire_eq`).

`Stage.LeadsTo` says once what any request can lead to; how requests are answered is not opened again
(`Stage.leadsTo_answerUnless`, `Stage.leadsTo_answerReliably`).
-/

namespace ClusterCatalog

/-- The next generation has the next number, the database that was put in, and everything else. -/
theorem Generation.eq_of_succeededBy {g g' : Generation} {d : Database}
    (h : g.succeededBy d = .ok g') : g' = { g.withDatabase d with number := g.number + 1 } := by
  unfold succeededBy successor at h
  split at h
  · exact (Except.ok.inj h).symm
  · cases h

/-- Only the number can be in the way. -/
theorem Generation.eq_overflow_of_succeededBy {g : Generation} {d : Database} {f : Failure}
    (h : g.succeededBy d = .error f) : f = .overflow := by
  unfold succeededBy successor at h
  split at h
  · cases h
  · exact (Except.error.inj h).symm

/-- The databases of the next generation are those of the one before, with one of them put in. -/
theorem Generation.databases_of_succeededBy {g g' : Generation} {d : Database}
    (h : g.succeededBy d = .ok g') : g'.databases = g.databases.insert d.name d := by
  rw [eq_of_succeededBy h]
  rfl

/-- The schemas of a database that is known are its own. -/
theorem Generation.schemas_of_database {g : Generation} {db : String} {d : Database}
    (h : g.database db = .ok d) : g.schemas db = d.schemas := by
  unfold Generation.database at h
  unfold Generation.schemas
  cases hd : g.databases.get? db with
  | none =>
    rw [hd] at h
    cases h
  | some found =>
    rw [hd] at h
    obtain rfl : found = d := Except.ok.inj h
    rfl

/-- What a call leaves in the journal. -/
def Journal.noted (j : Journal) : StoreRequest → Journal
  | .persist p v => { j with writes := j.writes ++ [.persist p v] }
  | .delete p => { j with writes := j.writes ++ [.delete p] }
  | .warn w => { j with warnings := j.warnings ++ [w] }
  | .query _ => j
  | .children _ => j

namespace Stage

variable (s : Stage)

/-- **A call** is refused, or it is answered; only the faults remember that it was made. -/
theorem call_rule {α : Type} {kind : CallKind} {path : Path} {answer : Repository → α}
    {change : Stage → Stage} {P : Except Error α → Stage → Prop}
    (hrefused : ∀ faults, P (.error (Fault.rejection kind path)) { s with faults })
    (hanswered : ∀ faults, P (.ok (answer s.repository)) (change { s with faults })) :
    P (s.call kind path answer change).1 (s.call kind path answer change).2 := by
  unfold call
  dsimp only
  -- a fault that is planned for this call is used up, and takes the place of the answer
  split
  · exact hrefused _
  · exact hanswered _

/-- **A call with faults** is a call of a repository that may refuse it, for the reasons that faults
give. -/
theorem answerStore_answers_of {reasons : Error → Prop}
    (hreasons : ∀ kind path, reasons (Fault.rejection kind path)) (call : StoreRequest) :
    (Repository.terms (fun _ _ => True) reasons).Answers call s.repository (answerStore call s).1
      (answerStore call s).2.repository := by
  let Answered (call : StoreRequest) (reply : call.Reply) (s' : Stage) : Prop :=
    (Repository.terms (fun _ _ => True) reasons).Answers call s.repository reply s'.repository
  have hrefused : ∀ kind path call, Answered call (call.refused (Fault.rejection kind path)) s :=
    fun kind path call => Repository.terms_answers_refused (hreasons kind path) call s.repository
  have hanswered : (Repository.terms (fun _ _ => True) reasons).Answers call s.repository
      (Repository.answer call s.repository).1 (Repository.answer call s.repository).2 :=
    Repository.terms_answers call s.repository
  -- one case for each kind of call: it is refused, or it is answered as the repository answers it
  cases call with
  | persist path value =>
    exact s.call_rule (P := Answered (.persist path value)) (fun _ => hrefused .persist path _)
      fun _ => hanswered
  | query path =>
    exact s.call_rule (P := Answered (.query path)) (fun _ => hrefused .query path _)
      fun _ => hanswered
  | children path =>
    exact s.call_rule (P := Answered (.children path)) (fun _ => hrefused .children path _)
      fun _ => hanswered
  | delete path =>
    exact s.call_rule (P := Answered (.delete path)) (fun _ => hrefused .delete path _)
      fun _ => hanswered
  | warn w => exact hanswered

/-- Whatever the faults are, a call is answered as a repository may answer that refuses what it likes.
-/
theorem answerStore_answers (call : StoreRequest) :
    Repository.unsure.Answers call s.repository (answerStore call s).1
      (answerStore call s).2.repository := s.answerStore_answers_of (fun _ _ => trivial) call

/-- A call of the repository touches neither the generation nor the pools. -/
theorem answerStore_frame (call : StoreRequest) :
    (answerStore call s).2.generation = s.generation
      ∧ (answerStore call s).2.pools = s.pools := by
  -- a call touches the generation and the pools only if its effect on the repository does
  have hcall : ∀ {α : Type} (kind : CallKind) (path : Path) (answer : Repository → α)
      (change : Stage → Stage), (∀ s, (change s).generation = s.generation ∧
        (change s).pools = s.pools) →
      (s.call kind path answer change).2.generation = s.generation
        ∧ (s.call kind path answer change).2.pools = s.pools := fun _ _ _ _ hchange =>
    s.call_rule (P := fun _ s' => s'.generation = s.generation ∧ s'.pools = s.pools)
      (fun _ => ⟨rfl, rfl⟩) fun _ => hchange _
  cases call with
  | persist path value => exact hcall _ _ _ _ fun _ => ⟨rfl, rfl⟩
  | query path => exact hcall _ _ _ _ fun _ => ⟨rfl, rfl⟩
  | children path => exact hcall _ _ _ _ fun _ => ⟨rfl, rfl⟩
  | delete path => exact hcall _ _ _ _ fun _ => ⟨rfl, rfl⟩
  | warn w => exact ⟨rfl, rfl⟩

/-- **A call without faults** is answered by the repository, and nothing else happens but that it is
recorded. -/
theorem answerStore_of_faults_eq_nil (h : s.faults = []) (call : StoreRequest) :
    answerStore call s = ((Repository.answer call s.repository).1,
      { s with repository := (Repository.answer call s.repository).2, journal := s.journal.noted call }) := by
  cases s
  cases h
  cases call <;> rfl

/-- **An operation on the repository** is carried out on a node without faults as on the repository
itself. -/
theorem run_access_of_faults_eq_nil {α : Type} (p : Access α) {s : Stage} (h : s.faults = []) :
    ((Cluster.access p).run answer s).1 = (p.run Repository.answer s.repository).1
      ∧ ((Cluster.access p).run answer s).2.repository = (p.run Repository.answer s.repository).2
      ∧ ((Cluster.access p).run answer s).2.faults = [] := by
  induction p generalizing s with
  | done a => exact ⟨rfl, rfl, h⟩
  | stop f => exact ⟨rfl, rfl, h⟩
  | ask call k ih =>
    -- after a call there are still no faults, so the rest is carried out alike as well
    have hrest := ih (Repository.answer call s.repository).1 (s := { s with
      repository := (Repository.answer call s.repository).2, journal := s.journal.noted call }) h
    show ((Cluster.access (k (answerStore call s).1)).run answer (answerStore call s).2).1
        = ((k (Repository.answer call s.repository).1).run Repository.answer
          (Repository.answer call s.repository).2).1
      ∧ ((Cluster.access (k (answerStore call s).1)).run answer (answerStore call s).2).2.repository
        = ((k (Repository.answer call s.repository).1).run Repository.answer
          (Repository.answer call s.repository).2).2
      ∧ ((Cluster.access (k (answerStore call s).1)).run answer (answerStore call s).2).2.faults = []
    rw [s.answerStore_of_faults_eq_nil h]
    exact hrest

/-- **An operation on the repository** leads on a node to what it leads to whichever calls are
refused. -/
theorem run_access_of_unsure {α : Type} {p : Access α} {s : Stage}
    {post : Except Failure α → Repository → Prop} (h : p.Keeps Repository.unsure post s.repository) :
    post ((Cluster.access p).run answer s).1 ((Cluster.access p).run answer s).2.repository := by
  induction p generalizing s with
  | done a => exact h
  | stop f => exact h
  | ask call k ih => exact ih _ (h.2 _ _ (s.answerStore_answers call))

/-- Loading a generation replaces the current one, which may be worth a warning. -/
theorem install_eq (g : Generation) :
    ∃ warnings, s.install g = { s with generation := g, journal := { s.journal with warnings } }
      ∧ ∀ w ∈ warnings, w ∈ s.journal.warnings
        ∨ w = .generationNotAdvancing g.number s.generation.number := by
  unfold install
  dsimp only
  split
  · exact ⟨_, rfl, fun w hw => (List.mem_append.1 hw).imp_right List.mem_singleton.1⟩
  · exact ⟨_, rfl, fun w hw => .inl hw⟩

/-- A generation that is installed leaves the repository alone. -/
theorem repository_install (g : Generation) : (s.install g).repository = s.repository := by
  obtain ⟨warnings, hinstall, -⟩ := s.install_eq g
  rw [hinstall]

/-- A generation that is installed is the current one. -/
theorem generation_install (g : Generation) : (s.install g).generation = g := by
  obtain ⟨warnings, hinstall, -⟩ := s.install_eq g
  rw [hinstall]

/-- **Handing pools over** is only noted down. -/
theorem retire_eq (policy : DrainPolicy) (pools : List PoolId) :
    ∃ handedOver handovers, s.retire policy pools = { s with handedOver, handovers } := by
  unfold Stage.retire
  induction pools generalizing s with
  | nil => exact ⟨_, _, rfl⟩
  | cons pool pools ih =>
    obtain ⟨handedOver, handovers, h⟩ := ih (s.handOver policy pool)
    exact ⟨handedOver, handovers, h⟩

/-! ### What a request leads to -/

/-- **What a request can lead to**: its reply, and the stage after it. A database that is put in
changes the generation, whose number is all that can be in the way; a pool that is opened gets the
next number; calls of the repository are answered, or refused for one of the given reasons. What is
built is the rebuilt generation, and what is waited for is the current one, if they do not fail.
Nothing else changes but what is noted down. -/
inductive LeadsTo (reasons : Error → Prop) (s : Stage) : (r : ClusterRequest) → r.Reply × Stage → Prop
  | answered (call : StoreRequest) : LeadsTo reasons s (.store call) (answerStore call s)
  | refused (call : StoreRequest) {e : Error} (he : reasons e) :
    LeadsTo reasons s (.store call) (call.refused e, s)
  | current : LeadsTo reasons s .current (s.generation, s)
  | built (db : String) (isNew : Bool) (diff : ResourceDiff) (before : Generation) :
    LeadsTo reasons s (.build db isNew diff before) (diff.rebuild db isNew before, s)
  | notBuilt (db : String) (isNew : Bool) (diff : ResourceDiff) (before : Generation) (e : Error) :
    LeadsTo reasons s (.build db isNew diff before) (.error (.error e), s)
  | opened (unit : String) (properties : PoolProperties) :
    LeadsTo reasons s (.openPool unit properties)
      (.ok s.pools.length, (s.openPool unit properties.url).2)
  | notOpened (unit : String) (properties : PoolProperties) (e : Error) :
    LeadsTo reasons s (.openPool unit properties) (.error e, s)
  | installed {d : Database} {g : Generation} (hg : s.generation.succeededBy d = .ok g) :
    LeadsTo reasons s (.installDatabase d) (.ok g, { s with generation := g })
  | notInstalled (d : Database) : LeadsTo reasons s (.installDatabase d) (.error .overflow, s)
  | found {goal : Goal} (timeoutMs : Nat) (hgoal : goal.reachedBy s.generation = true) :
    LeadsTo reasons s (.awaitGeneration goal timeoutMs) (some s.generation, s)
  | notFound (goal : Goal) (timeoutMs : Nat) :
    LeadsTo reasons s (.awaitGeneration goal timeoutMs) (none, s)
  | retired (policy : DrainPolicy) (pools : List PoolId) (handedOver handovers) :
    LeadsTo reasons s (.retire policy pools) ((), { s with handedOver, handovers })
  | announced (db : String) (event : DatabaseEvent) (reply : Except Error Unit) {journal : Journal}
    (hwrites : journal.writes = s.journal.writes) (hwarnings : journal.warnings = s.journal.warnings) :
    LeadsTo reasons s (.announce db event) (reply, { s with journal })

/-- A database is installed, unless there is no number left for the generation. -/
theorem leadsTo_installDatabase (reasons : Error → Prop) (d : Database) :
    s.LeadsTo reasons (.installDatabase d) (s.installDatabase d) := by
  unfold installDatabase
  cases hg : s.generation.succeededBy d with
  | ok g => exact .installed hg
  | error f =>
    obtain rfl := Generation.eq_overflow_of_succeededBy hg
    exact .notInstalled d

/-- **The stage answers** without waiting. -/
theorem leadsTo_answer (reasons : Error → Prop) (r : ClusterRequest) :
    s.LeadsTo reasons r (Stage.answer r s) := by
  -- one case for each request, and for each of its answers the rule that allows it
  cases r with
  | store call => exact .answered call
  | current => exact .current
  | build db isNew diff before =>
    show s.LeadsTo reasons (.build db isNew diff before) (s.build db isNew diff before, s)
    unfold build
    split
    · exact .notBuilt db isNew diff before _
    · exact .built db isNew diff before
  | openPool unit properties =>
    show s.LeadsTo reasons (.openPool unit properties) (s.tryOpenPool unit properties.url)
    unfold tryOpenPool
    split
    · exact .notOpened unit properties _
    · exact .opened unit properties
  | installDatabase d => exact s.leadsTo_installDatabase reasons d
  | awaitGeneration goal timeoutMs =>
    show s.LeadsTo reasons (.awaitGeneration goal timeoutMs)
      (if goal.reachedBy s.generation then some s.generation else none, s)
    split
    · exact .found timeoutMs ‹_›
    · exact .notFound goal timeoutMs
  | retire policy pools =>
    obtain ⟨handedOver, handovers, hretired⟩ := s.retire_eq policy pools
    show s.LeadsTo reasons (.retire policy pools) ((), s.retire policy pools)
    rw [hretired]
    exact .retired policy pools handedOver handovers
  | announce db event => exact .announced db event _ rfl rfl

/-! ### Requests that fail -/

/-- How a request is answered: by the stage, unless it is made to fail. Calls of the repository,
builds and openings can fail. -/
def answerUnless : Option Error → (r : ClusterRequest) → Stage → r.Reply × Stage
  | some e, .store call, s => (call.refused e, s)
  | some e, .build .., s => (.error (.error e), s)
  | some e, .openPool .., s => (.error e, s)
  | _, r, s => Stage.answer r s

/-- How a request is answered on a node whose repository refuses nothing: builds and openings can
fail. -/
def answerReliably (failure : Option Error) : (r : ClusterRequest) → Stage → r.Reply × Stage
  | .store call, s => Stage.answerStore call s
  | r, s => Stage.answerUnless failure r s

/-! Databases are put in and pools are handed over in any case. -/

variable (failure : Option Error)

/-- Installing a database is never refused. -/
@[simp] theorem answerUnless_installDatabase (d : Database) :
    answerUnless failure (.installDatabase d) s = s.installDatabase d := by
  cases failure <;> rfl

/-- Handing pools over is never refused. -/
@[simp] theorem answerUnless_retire (policy : DrainPolicy) (pools : List PoolId) :
    answerUnless failure (.retire policy pools) s = ((), s.retire policy pools) := by
  cases failure <;> rfl

/-- Installing a database is no call of the repository. -/
@[simp] theorem answerReliably_installDatabase (d : Database) :
    s.answerReliably failure (.installDatabase d) = s.installDatabase d :=
  s.answerUnless_installDatabase failure d

/-- Handing pools over is no call of the repository. -/
@[simp] theorem answerReliably_retire (policy : DrainPolicy) (pools : List PoolId) :
    s.answerReliably failure (.retire policy pools) = ((), s.retire policy pools) :=
  s.answerUnless_retire failure policy pools

/-- A request that is refused for a reason is answered as one that may be refused for it. -/
theorem leadsTo_answerUnless (r : ClusterRequest) :
    s.LeadsTo (failure = some ·) r (answerUnless failure r s) := by
  cases failure with
  | none => exact s.leadsTo_answer _ r
  | some e =>
    -- a failure is taken up by the requests that can fail, and by no other
    cases r with
    | store call => exact .refused call rfl
    | build db isNew diff before => exact .notBuilt db isNew diff before e
    | openPool unit properties => exact .notOpened unit properties e
    | _ => exact s.leadsTo_answer _ _

/-- On a node whose repository refuses nothing, a request is answered as one that is never refused. -/
theorem leadsTo_answerReliably (r : ClusterRequest) :
    s.LeadsTo (fun _ => False) r (s.answerReliably failure r) := by
  -- calls of the repository are answered whatever was asked for
  cases r with
  | store call => exact .answered call
  | build db isNew diff before =>
    cases failure with
    | none => exact s.leadsTo_answer _ _
    | some e => exact .notBuilt db isNew diff before e
  | openPool unit properties =>
    cases failure with
    | none => exact s.leadsTo_answer _ _
    | some e => exact .notOpened unit properties e
  | _ => cases failure <;> exact s.leadsTo_answer _ _

/-- A node where nothing fails answers as it does without waiting. -/
theorem answer_eq_answerReliably (r : ClusterRequest) (s : Stage) :
    Stage.answer r s = s.answerReliably none r := by
  cases r <;> rfl

end Stage

end ClusterCatalog
