import ClusterCatalog.Proofs.Store.Item

/-!
# The calls of an item

Whatever is done with a versioned item asks for few things only. Looking at it lists its revisions,
reads the pointer and reads the revision that the pointer names (`Item.Look`). Staging, committing and
publishing a text also write revisions, move the pointer and remove revisions (`Item.Call`). Which of
these an operation makes is read off its plan, for all replies at once.

What else is known of the calls of an item (that they stay below its path, that they suit its texts)
follows from the two lists, or from the rules that they come from (`Item.keeps_stage_of`,
`Item.uses_commitOne_of`), which also say that a number is in range.
-/

namespace ClusterCatalog

open Plan

/-- The node that a call is about. A warning is about none. -/
def StoreRequest.node? : StoreRequest → Option Path
  | persist path _ => some path
  | query path => some path
  | children path => some path
  | delete path => some path
  | warn _ => none

namespace Item

/-- **The calls of looking at an item.** -/
inductive Look (path : Path) : StoreRequest → Prop
  | listing : Look path (.children (Path.versions path))
  | pointer : Look path (.query (Path.activeVersion path))
  | revision (n : Nat) : Look path (.query (Path.version path n))
  | warning (w : Warning) : Look path (.warn w)

/-- **The calls of an item.** A pointer is moved to a number. -/
inductive Call (path : Path) : StoreRequest → Prop
  | look {call : StoreRequest} (h : Look path call) : Call path call
  | write (n : Nat) (v : String) : Call path (.persist (Path.version path n) v)
  | move (n : Nat) : Call path (.persist (Path.activeVersion path) (toString n))
  | remove (n : Nat) : Call path (.delete (Path.version path n))

/-- **The nodes of an item.** -/
inductive IsNode (path : Path) : Path → Prop
  | pointer : IsNode path (Path.activeVersion path)
  | versions : IsNode path (Path.versions path)
  | revision (n : Nat) : IsNode path (Path.version path n)

variable {path : Path} {allowed : StoreRequest → Prop} {s : PendingSwitch}

/-- **The calls of an item are about its nodes.** -/
theorem Call.isNode {call : StoreRequest} (h : Call path call) :
    ∀ node, call.node? = some node → IsNode path node := by
  intro node hnode
  cases h with
  | look hlook =>
    cases hlook with
    | listing => exact Option.some.inj hnode ▸ .versions
    | pointer => exact Option.some.inj hnode ▸ .pointer
    | revision n => exact Option.some.inj hnode ▸ .revision n
    | warning w => cases hnode
  | write n v => exact Option.some.inj hnode ▸ .revision n
  | move n => exact Option.some.inj hnode ▸ .pointer
  | remove n => exact Option.some.inj hnode ▸ .revision n

/-! ### Looking at an item -/

/-- A warning is a look: nothing is written. -/
theorem looks_warn (path : Path) (w : Warning) : (Access.warn w).Uses (Look path) :=
  ⟨.warning w, fun _ => trivial⟩

/-- To list the revisions is to look at the node above them. -/
theorem looks_revisions (path : Path) : (revisions path).Uses (Look path) := by
  unfold revisions
  refine Uses.seq ⟨.listing, fun reply => uses_ofExcept reply⟩ fun names => ?_
  -- the names are read without another call
  refine (Uses.mapM fun text _ => uses_ofExcept _).seq fun found => ?_
  split
  · exact (looks_warn path _).seq fun _ => trivial
  · trivial

/-- To find the active revision is to ask for the pointer. -/
theorem uses_active_of (hpointer : allowed (.query (Path.activeVersion path))) :
    (active path).Uses allowed := by
  unfold active
  refine Uses.seq ⟨hpointer, fun reply => uses_ofExcept reply⟩ fun found => ?_
  -- an empty pointer counts as none; any other one must be a number, or the reading ends here
  cases found with
  | none => trivial
  | some text =>
    show (if text = "" then _ else _ : Access (Option Nat)).Uses _
    split
    · trivial
    · exact (uses_ofExcept _).seq fun _ => trivial

/-- To find the active value is to ask for the pointer, and then for the revision that it leads to. -/
theorem uses_activeValue_of (hpointer : allowed (.query (Path.activeVersion path)))
    (hrevision : ∀ n, allowed (.query (Path.version path n))) : (activeValue path).Uses allowed := by
  unfold activeValue
  refine (uses_active_of hpointer).seq fun found => ?_
  cases found with
  | none => trivial
  | some n => exact ⟨hrevision n, fun reply => uses_ofExcept reply⟩

/-- To find the active revision is to look at the item. -/
theorem looks_active (path : Path) : (active path).Uses (Look path) := uses_active_of .pointer

/-- To find the active value is to look at the item. -/
theorem looks_activeValue (path : Path) : (activeValue path).Uses (Look path) :=
  uses_activeValue_of .pointer .revision

/-! ### Changing an item -/

/-- **What staging asks for**: looks, a write under a number in range, and a move of the pointer to it. It
leaves a switch of the item to this number. -/
theorem keeps_stage_of {v : String} (hlook : ∀ call, Look path call → allowed call)
    (hwrite : ∀ n ≤ maxRevision, allowed (.persist (Path.version path n) v))
    (hmove : ∀ n ≤ maxRevision, allowed (.persist (Path.activeVersion path) (toString n))) :
    (stage path v).Keeps (.any allowed)
      (fun r _ => ∀ s, r = .ok s → s.path = path ∧ s.next ≤ maxRevision) () := by
  have hlooks : ∀ {α : Type} {p : Access α}, p.Uses (Look path) →
      p.Keeps (.any allowed) (fun _ _ => True) () := fun h => uses_iff.1 (h.mono hlook)
  have hpersist : ∀ {p : Path} {text : String}, allowed (.persist p text) →
      (Access.persist p text).Uses allowed := fun h => ⟨h, fun reply => uses_ofExcept reply⟩
  unfold stage
  refine (hlooks (looks_revisions path)).bind (fun found _ _ => ?_) fun _ _ _ _ h => by cases h
  show (Plan.ofResult (nextRevision found) >>= _).Keeps _ _ _
  rw [keeps_bind, keeps_ofResult]
  cases hnext : nextRevision found with
  | error f => exact fun _ h => by cases h
  | ok next =>
    have hle := (lt_of_nextRevision hnext).1
    refine (uses_iff.1 (hpersist (hwrite next hle))).bind (fun _ _ _ => ?_) fun _ _ _ _ h => by cases h
    refine (hlooks (looks_active path)).bind (fun found _ _ => ?_) fun _ _ _ _ h => by cases h
    cases found with
    | some current =>
      rintro s h
      cases h
      exact ⟨rfl, hle⟩
    | none =>
      -- the first revision is the active one at once
      refine (uses_iff.1 (hpersist (hmove next hle))).bind (fun _ _ _ => ?_) fun _ _ _ _ h => by cases h
      rintro s h
      cases h
      exact ⟨rfl, hle⟩

/-- **What pruning asks for**: looks, and removals of revisions. -/
theorem uses_prune_of (hlook : ∀ call, Look s.path call → allowed call)
    (hremove : ∀ n, allowed (.delete (Path.version s.path n))) : (prune s).Uses allowed := by
  have hwarn : ∀ w, (Access.warn w).Uses allowed := fun w => (looks_warn s.path w).mono hlook
  unfold prune
  -- whatever goes wrong here ends in a warning
  refine ((looks_revisions s.path).mono hlook).attempt.seq fun found => ?_
  cases found with
  | error e => exact hwarn _
  | ok found =>
    refine Uses.forM fun n _ => ?_
    have hdelete : (Access.delete (s.versionPath n)).Uses allowed :=
      ⟨hremove n, fun reply => uses_ofExcept reply⟩
    refine hdelete.attempt.seq fun result => ?_
    cases result with
    | error e => exact hwarn _
    | ok _ => trivial

/-- **What a commit asks for**: it moves the pointer, and then prunes. -/
theorem uses_commitOne_of (hlook : ∀ call, Look s.path call → allowed call)
    (hmove : allowed (.persist (Path.activeVersion s.path) (toString s.next)))
    (hremove : ∀ n, allowed (.delete (Path.version s.path n))) : (commitOne s).Uses allowed := by
  unfold commitOne
  split
  · exact Uses.seq ⟨hmove, fun reply => uses_ofExcept reply⟩ fun _ => uses_prune_of hlook hremove
  · trivial

/-- Staging a text makes calls of its item, and leaves a switch of the item. -/
theorem keeps_stage_calls (path : Path) (v : String) :
    (stage path v).Keeps (.any (Call path)) (fun r _ => ∀ s, r = .ok s → s.path = path) () :=
  (keeps_stage_of (fun _ => Call.look) (fun n _ => .write n v) fun n _ => .move n).mono
    fun _ _ h s hs => (h s hs).1

/-- Committing a switch makes calls of its item. -/
theorem calls_commitOne (s : PendingSwitch) : (commitOne s).Uses (Call s.path) :=
  uses_commitOne_of (fun _ => Call.look) (.move s.next) .remove

/-- **Publishing a text** makes calls of its item only. -/
theorem calls_publish (path : Path) (v : String) : (publish path v).Uses (Call path) := by
  unfold publish
  refine Uses.bind_of_keeps (keeps_stage_calls path v) fun s hs => ?_
  have hcommit : (commit [s]).Uses (Call path) :=
    Uses.forM fun s' hs' => by
      obtain rfl := List.mem_singleton.1 hs'
      exact hs ▸ calls_commitOne s'
  exact hcommit.seq fun _ => trivial

end Item

end ClusterCatalog
