import ClusterCatalog.Proofs.Store.Calls
import ClusterCatalog.Proofs.Store.Item
import ClusterCatalog.Store.Reload
import ClusterCatalog.Store.Rules
import ClusterCatalog.Store.Statistics
import ClusterCatalog.Store.Units

/-!
# What a writer leaves alone

An operation on the repository reads, writes and removes nodes below one path or a few. What is apart
from these paths stays as it is, whatever the repository refuses on the way, and it does not matter
for the operation either.

* `StoreRequest.Concerns` — a call is about what is at or below a path. Which calls an operation
  makes is read off its plan (`Item.uses_publish`, `Stored.uses_alterSchema` and so on).
* `Repository.SameAt` — a part of two repositories is the same.
* `Access.keeps_sameAt` — a plan of calls that are apart from a part of the repository keeps that
  part.
* `Access.keeps_leftAlone` — a plan about some parts changes nothing else, missing nodes above them
  aside.
* `Access.run_of_sameAt` — a plan of calls about one part ends the same way wherever that part is the
  same, and leaves it the same.
-/

namespace ClusterCatalog

open Plan

/-- **A call is about what is at or below a path.** What is listed for a node stands below it. -/
def StoreRequest.Concerns (a : Path) : StoreRequest → Prop
  | persist p _ => a.Covers p
  | query p => a.Covers p
  | children p => a.IsAbove (Path.below p)
  | delete p => a.IsAbove p
  | warn _ => True

theorem StoreRequest.Concerns.mono {a b : Path} (h : a.Covers b) :
    ∀ {r : StoreRequest}, r.Concerns b → r.Concerns a
  | .persist .., hr => h.trans hr
  | .query .., hr => h.trans hr
  | .children .., hr => h.isAbove_of_isAbove hr
  | .delete .., hr => h.isAbove_of_isAbove hr
  | .warn .., _ => trivial

namespace Repository

/-- **A part of two repositories is the same**: the part at and below a path. -/
def SameAt (root : Path) (r r' : Repository) : Prop :=
  ∀ q, root.Covers q → r'.query q = r.query q

variable {root a p : Path} {r r' r'' : Repository}

theorem SameAt.refl (root : Path) (r : Repository) : SameAt root r r := fun _ _ => rfl

theorem SameAt.trans (h : SameAt root r r') (h' : SameAt root r' r'') : SameAt root r r'' :=
  fun q hq => (h' q hq).trans (h q hq)

theorem SameAt.symm (h : SameAt root r r') : SameAt root r' r := fun q hq => (h q hq).symm

theorem sameAt_persist (hapart : a.Apart root) (hp : a.Covers p) (v : String) :
    SameAt root r (r.persist p v) := by
  intro q hq
  refine query_persist_of_not_covers r p v fun hqp => ?_
  -- a node above the written one would be below both paths
  exact (hapart.mono hp (hq.trans hqp)).1 (.refl p)

/-- A path is removed with everything that it is in front of. -/
theorem sameAt_delete (hapart : a.Apart root) (hp : a.IsAbove p) : SameAt root r (r.delete p) := by
  intro q hq
  refine query_delete_of_not_front r p fun hpq => ?_
  -- `p` is in front of `q`, and `a` with a slash in front of `p`
  have haq : a.IsAbove q := hp.trans hpq
  exact (hapart.mono haq.covers hq).1 (.refl q)

/-- A child is removed with everything below it. -/
theorem sameAt_delete_child {name : String} (hname : Path.IsName name)
    (hapart : (Path.child p name).Apart root) : SameAt root r (r.delete (Path.child p name)) := by
  intro q hq
  rw [query_delete_child _ _ hname, if_neg]
  exact fun hcovers => (hapart.mono hcovers hq).1 (.refl q)

/-- **A call that is about something else** leaves a part as it is. -/
theorem sameAt_answer_of_apart (hapart : a.Apart root) {call : StoreRequest}
    (hcall : call.Concerns a) : SameAt root r (answer call r).2 := by
  cases call with
  | persist p v => exact sameAt_persist hapart hcall v
  | delete p => exact sameAt_delete hapart hcall
  | query p => exact .refl root r
  | children p => exact .refl root r
  | warn w => exact .refl root r

/-- Whatever a call leaves of a part depends only on what was there of it. -/
theorem SameAt.answer (h : SameAt root r r') (call : StoreRequest) :
    SameAt root (answer call r).2 (answer call r').2 := by
  -- what a call leaves at a path depends on what was there, and on nothing else
  cases call with
  | persist p v =>
    intro q hq
    show (r'.persist p v).query q = (r.persist p v).query q
    rw [r'.query_persist, r.query_persist, h q hq]
  | query p => exact h
  | children p => exact h
  | delete p =>
    intro q hq
    show (r'.delete p).query q = (r.delete p).query q
    rw [r'.query_delete, r.query_delete, h q hq]
  | warn w => exact h

/-- **A node outside some parts is left alone**: it is the same, or it was missing above one of them
and is there without a text. -/
def LeftAlone (parts : Path → Prop) (r r' : Repository) (q : Path) : Prop :=
  r'.query q = r.query q
    ∨ (∃ a, parts a ∧ q.IsAbove a) ∧ r.query q = none ∧ r'.query q = some ""

theorem LeftAlone.trans {parts : Path → Prop} {q : Path}
    (h : LeftAlone parts r r' q) (h' : LeftAlone parts r' r'' q) : LeftAlone parts r r'' q := by
  rcases h' with h' | ⟨habove, hnone, hempty⟩
  · exact h.imp h'.trans fun ⟨habove, hnone, hempty⟩ => ⟨habove, hnone, h'.trans hempty⟩
  · rcases h with h | ⟨-, -, hsome⟩
    · exact .inr ⟨habove, h.symm.trans hnone, hempty⟩
    · cases hsome.symm.trans hnone

end Repository

namespace Access

open Repository

variable {α : Type} {root a p : Path} {v : String}

/-! ### Reading a plan off -/

theorem uses_persist (h : a.Covers p) : (persist p v).Uses (StoreRequest.Concerns a) :=
  ⟨h, fun reply => uses_ofExcept reply⟩

theorem uses_delete (h : a.IsAbove p) : (delete p).Uses (StoreRequest.Concerns a) :=
  ⟨h, fun reply => uses_ofExcept reply⟩

theorem uses_children (h : a.IsAbove p) : (children p).Uses (StoreRequest.Concerns a) :=
  ⟨h.trans (Path.prefix_below p), fun reply => uses_ofExcept reply⟩

theorem uses_children_self {name : String} (h : Path.IsName name) :
    (children (Path.child p name)).Uses (StoreRequest.Concerns (Path.child p name)) := by
  refine ⟨?_, fun reply => uses_ofExcept reply⟩
  show (Path.child p name).toList ++ ['/'] <+: (Path.below (Path.child p name)).toList
  rw [Path.toList_below_child h]

/-- A plan about what is below a path is about what is below a path above it. -/
theorem uses_mono {b : Path} {q : Access α} (h : q.Uses (StoreRequest.Concerns b)) (hab : a.Covers b) :
    q.Uses (StoreRequest.Concerns a) := h.mono fun _ hr => hr.mono hab

/-- **What is apart stays as it is**, for any number of parts at once. -/
theorem keeps_sameAt {allowed : StoreRequest → Prop} {P : Path → Prop} {q : Access α}
    (h : q.Uses allowed)
    (hapart : ∀ r root, allowed r → P root → ∃ a, a.Apart root ∧ r.Concerns a) (s : Repository) :
    q.Keeps unsure (fun _ s' => ∀ root, P root → SameAt root s s') s := by
  refine ((uses_iff.1 h).of_any (R := fun s s' => ∀ root, P root → SameAt root s s')
    (fun s root _ => .refl root s) (fun _ _ _ h h' root hroot => (h root hroot).trans (h' root hroot))
    (fun r s hr => ⟨trivial, ?_⟩) s).mono fun _ _ h => h.1
  rintro reply s' ⟨refusal, -, hanswer⟩ root hroot
  obtain ⟨-, rfl⟩ := Prod.ext_iff.1 hanswer
  obtain ⟨a, hapart, hconcerns⟩ := hapart r root hr hroot
  -- a refused call changes nothing at all
  cases refusal with
  | some e => exact .refl root s
  | none => exact sameAt_answer_of_apart hapart hconcerns

/-- **Outside the parts that a plan is about** nothing changes but that missing nodes above them come
to be. -/
theorem keeps_leftAlone {parts : Path → Prop} {q : Access α}
    (h : q.Uses fun call => ∃ a, parts a ∧ StoreRequest.Concerns a call) (s : Repository) :
    q.Keeps unsure (fun _ s' => ∀ p, (∀ a, parts a → ¬ a.Covers p) → LeftAlone parts s s' p) s := by
  refine ((uses_iff.1 h).of_any
    (R := fun s s' => ∀ p, (∀ a, parts a → ¬ a.Covers p) → LeftAlone parts s s' p)
    (fun s p _ => .inl rfl) (fun _ _ _ h h' p hp => (h p hp).trans (h' p hp))
    (fun call s hcall => ⟨trivial, ?_⟩) s).mono fun _ _ h => h.1
  rintro reply s' ⟨refusal, -, hanswer⟩ p hp
  obtain ⟨-, rfl⟩ := Prod.ext_iff.1 hanswer
  obtain ⟨a, ha, hconcerns⟩ := hcall
  cases refusal with
  | some e => exact .inl rfl
  | none =>
    cases call with
    | persist x v =>
      have hne : p ≠ x := fun heq => hp a ha (heq ▸ hconcerns)
      refine (s.query_persist_eq x v hne).imp id fun ⟨habove, hnone, hempty⟩ =>
        ⟨⟨a, ha, ?_⟩, hnone, hempty⟩
      -- both stand above the written node, and the part is not above the other one
      rcases habove.covers.total hconcerns with heq | habove
      · exact heq.resolve_left fun heq => hp a ha (heq ▸ .refl p)
      · exact absurd habove (hp a ha)
    | delete x =>
      exact .inl (s.query_delete_of_not_front x fun hfront =>
        hp a ha (Path.IsAbove.covers (List.IsPrefix.trans hconcerns hfront)))
    | query x => exact .inl rfl
    | children x => exact .inl rfl
    | warn w => exact .inl rfl

/-- **What a call that is about one part answers** depends only on what is there of it. -/
theorem reply_of_sameAt {r r' : Repository} (hsame : SameAt root r r') {call : StoreRequest}
    (hcall : call.Concerns root) : (answer call r').1 = (answer call r).1 := by
  cases call with
  | persist p v => rfl
  | query p => exact congrArg Except.ok (hsame p hcall)
  | children p =>
    refine congrArg Except.ok (children_ext _ _ fun name => ?_)
    -- whatever a listing names stands below what it lists
    have hbelow : root.IsAbove (Path.below p ++ name) := by
      refine List.IsPrefix.trans hcall ?_
      rw [String.toList_append]
      exact List.prefix_append _ _
    rw [mem_children_iff, mem_children_iff, hsame _ hbelow.covers]
  | delete p => rfl
  | warn w => rfl

/-- **A plan about one part** ends the same way wherever that part is the same, and leaves it the
same. -/
theorem run_of_sameAt {q : Access α} (h : q.Uses (StoreRequest.Concerns root)) {r r' : Repository}
    (hsame : SameAt root r r') :
    (q.run answer r').1 = (q.run answer r).1 ∧ SameAt root (q.run answer r).2 (q.run answer r').2 := by
  induction q generalizing r r' with
  | done a => exact ⟨rfl, hsame⟩
  | stop f => exact ⟨rfl, hsame⟩
  | ask call k ih =>
    -- both runs are given the same reply, and go on from repositories that agree
    have hreply := reply_of_sameAt hsame h.1
    have hsame' := hsame.answer call
    show ((k (answer call r').1).run answer (answer call r').2).1 = _ ∧ SameAt root _
      ((k (answer call r').1).run answer (answer call r').2).2
    rw [hreply]
    exact ih _ (h.2 _) hsame'

/-- What is apart from a path stays as it is if all calls are about what is below the path. -/
theorem keeps_sameAt_within {q : Access α} (h : q.Uses (StoreRequest.Concerns a)) (s : Repository) :
    q.Keeps unsure (fun _ s' => ∀ root, a.Apart root → SameAt root s s') s :=
  keeps_sameAt h (fun _ _ hr hroot => ⟨a, hroot, hr⟩) s

end Access

/-! ### Items -/

namespace Item

open Repository

variable {a path : Path}

/-- **The calls of an item are about what is below it.** -/
theorem Call.concerns {call : StoreRequest} (h : Call path call) : call.Concerns path := by
  -- every node of an item is below it
  cases h with
  | look hlook =>
    cases hlook with
    | listing => exact (Path.isAbove_versions path).trans (Path.prefix_below _)
    | pointer => exact (Path.isAbove_activeVersion path).covers
    | revision n => exact (Path.isAbove_version path n).covers
    | warning w => trivial
  | write n v => exact (Path.isAbove_version path n).covers
  | move n => exact (Path.isAbove_activeVersion path).covers
  | remove n => exact Path.isAbove_version path n

theorem Look.concerns {call : StoreRequest} (h : Look path call) : call.Concerns path :=
  (Call.look h).concerns

theorem uses_activeValue (path : Path) : (activeValue path).Uses (StoreRequest.Concerns path) :=
  (looks_activeValue path).mono fun _ => Look.concerns

/-- Pruning and moving the pointer happen below the item. -/
theorem uses_commitOne (switch : PendingSwitch) :
    (commitOne switch).Uses (StoreRequest.Concerns switch.path) :=
  (calls_commitOne switch).mono fun _ => Call.concerns

/-- A new revision is written below the item, and the switch that is left is one of the item. -/
theorem keeps_stage_path (path : Path) (v : String) :
    (stage path v).Keeps (.any (StoreRequest.Concerns path))
      (fun r _ => ∀ switch, r = .ok switch → switch.path = path) () :=
  (keeps_stage_calls path v).of_terms (fun _ _ (hcall : Call path _) => hcall.concerns)
    fun _ _ _ _ hanswers => hanswers

/-- Committing switches is about their items. -/
theorem uses_commit {switches : List PendingSwitch} (h : ∀ switch ∈ switches, a.Covers switch.path) :
    (commit switches).Uses (StoreRequest.Concerns a) :=
  Uses.forM fun switch hswitch => Access.uses_mono (uses_commitOne switch) (h switch hswitch)

/-- Items that are staged leave switches of theirs. -/
theorem keeps_stage_covers {path : Path} (h : a.Covers path) (v : String) :
    (stage path v).Keeps (.any (StoreRequest.Concerns a))
      (fun r _ => ∀ switch, r = .ok switch → a.Covers switch.path) () := by
  have hwider : (stage path v).Keeps (.any (StoreRequest.Concerns a))
      (fun r _ => ∀ switch, r = .ok switch → switch.path = path) () :=
    (keeps_stage_path path v).of_terms (fun _ _ (hr : StoreRequest.Concerns path _) => hr.mono h)
      fun _ _ _ _ hanswers => hanswers
  refine hwider.mono fun r _ hpath switch hswitch => ?_
  rw [hpath switch hswitch]
  exact h

/-- Replacing items is about these items. -/
theorem uses_replace {β : Type} {l : List β} {item : β → Path} {value : β → String}
    (h : ∀ b ∈ l, a.Covers (item b)) :
    ((l.mapM fun b => stage (item b) (value b)) >>= commit).Uses (StoreRequest.Concerns a) := by
  refine Uses.bind_of_keeps (P := fun switches => ∀ switch ∈ switches, a.Covers switch.path) ?_
    fun switches => uses_commit
  exact Keeps.mapM_any fun b hb => keeps_stage_covers (h b hb) (value b)

theorem uses_stage (path : Path) (v : String) :
    (stage path v).Uses (StoreRequest.Concerns path) :=
  uses_iff.2 ((keeps_stage_path path v).mono fun _ _ _ => trivial)

/-- **Publishing a text** is about its item only. -/
theorem uses_publish (path : Path) (v : String) :
    (publish path v).Uses (StoreRequest.Concerns path) :=
  (calls_publish path v).mono fun _ => Call.concerns

end Item

/-! ### Schemas and statistics -/

namespace Stored

variable (db schema : String)

theorem covers_schema (name : String) : (Path.schemas db).Covers (Path.schema db name) :=
  (Path.isAbove_child _ _).covers

theorem covers_tables : (Path.schemas db).Covers (Path.tables db schema) :=
  (covers_schema db schema).trans (Path.isAbove_child _ _).covers

/-- Loading what is listed below a node is about what is below it. -/
theorem uses_loadItems {α : Type} [Codec α] {parent : Path} {node : String} (hnode : Path.IsName node)
    {item : String → Path} (hitem : ∀ name, (Path.child parent node).Covers (item name)) :
    (loadItems (Path.child parent node) item : Access (SortedMap α)).Uses
      (StoreRequest.Concerns (Path.child parent node)) := by
  unfold loadItems
  refine (Access.uses_children_self hnode).seq fun names => ?_
  refine (Uses.mapM fun name _ => ?_).seq fun _ => trivial
  refine (Access.uses_mono (Item.uses_activeValue (item name)) (hitem name)).seq fun shown => ?_
  -- a listed node is asked for its value, and the text is read without the repository
  cases shown with
  | none => trivial
  | some text => exact (uses_ofExcept _).seq fun _ => trivial

theorem uses_loadTables :
    (loadTables db schema).Uses (StoreRequest.Concerns (Path.tables db schema)) :=
  uses_loadItems (by decide) fun _ => (Path.isAbove_child _ _).covers

theorem uses_addSchema : (addSchema db schema).Uses (StoreRequest.Concerns (Path.schema db schema)) :=
  Access.uses_persist (Path.isAbove_child _ _).covers

theorem uses_persistTables (tables : List Table) :
    (persistTables db schema tables).Uses (StoreRequest.Concerns (Path.schema db schema)) :=
  Uses.forM fun _ _ => (Access.uses_mono (Item.uses_publish _ _)
    ((Path.isAbove_child _ _).covers.trans (Path.isAbove_child _ _).covers)).seq fun _ => trivial

theorem uses_persistViews (views : List View) :
    (persistViews db schema views).Uses (StoreRequest.Concerns (Path.schema db schema)) :=
  Uses.forM fun _ _ => (Access.uses_mono (Item.uses_publish _ _)
    ((Path.isAbove_child _ _).covers.trans (Path.isAbove_child _ _).covers)).seq fun _ => trivial

theorem uses_dropTable (table : String) :
    (dropTable db schema table).Uses (StoreRequest.Concerns (Path.schema db schema)) :=
  Access.uses_delete ((Path.isAbove_child _ _).covers.isAbove_of_isAbove (Path.isAbove_child _ _))

theorem uses_alterSchema (x : Schema) :
    (alterSchema db x).Uses (StoreRequest.Concerns (Path.schema db x.name)) :=
  (uses_addSchema db _).seq fun _ => (uses_persistTables db _ _).seq fun _ =>
    uses_persistViews db _ _

theorem uses_alterSchemaTables (x : Schema) :
    (alterSchemaTables db x).Uses (StoreRequest.Concerns (Path.schema db x.name)) :=
  (uses_addSchema db _).seq fun _ => uses_persistTables db _ _

theorem uses_dropRemovedTables (reloaded current : Schemas) :
    (dropRemovedTables db reloaded current).Uses (StoreRequest.Concerns (Path.schemas db)) :=
  Uses.forM fun t _ => Access.uses_mono (uses_dropTable db t.1 t.2) (covers_schema db t.1)

/-- **Writing a reload** is about the schemas of its database only. -/
theorem uses_persistReloadAltered (reloaded current : Schemas) :
    (persistReloadAltered db reloaded current).Uses (StoreRequest.Concerns (Path.schemas db)) :=
  (Uses.forM fun x _ => Access.uses_mono (uses_alterSchema db x) (covers_schema db x.name)).seq
    fun _ => uses_dropRemovedTables db reloaded current

theorem uses_persistReloadDropped (reloaded current : Schemas) :
    (persistReloadDropped db reloaded current).Uses (StoreRequest.Concerns (Path.schemas db)) :=
  (Uses.forM fun x _ => Access.uses_mono (uses_alterSchemaTables db x) (covers_schema db x.name)).seq
    fun _ => uses_dropRemovedTables db reloaded current

/-- The statistics of a database stand in a place of their own. -/
theorem uses_persistStatistics (definition : Option Schema) (statistics : SchemaStatistics) :
    (persistStatistics db schema definition statistics).Uses
      (StoreRequest.Concerns (Path.child Path.statisticsRoot db)) := by
  have hschema : (Path.child Path.statisticsRoot db).Covers (Path.statisticsSchema db schema) :=
    (Path.isAbove_child _ "schemas").covers.trans (Path.isAbove_child _ schema).covers
  unfold persistStatistics
  split
  · exact Access.uses_persist hschema
  · refine Uses.forM fun e _ => ?_
    split
    · exact Access.uses_persist ((hschema.trans (Path.isAbove_child _ "tables").covers).trans
        (Path.isAbove_child _ e.1).covers)
    · trivial

end Stored

/-! ### Units and rules -/

namespace Stored

variable {db : String} {allowed : StoreRequest → Prop}

/-- Loading the units of a database lists them and looks at each one. A unit without a revision gives a
warning. -/
theorem uses_loadUnits_of (hunits : allowed (.children (Path.storageUnits db)))
    (hvalue : ∀ unit, (Item.activeValue (Path.storageUnit db unit)).Uses allowed)
    (hwarn : ∀ unit, allowed (.warn (.unitWithoutActiveVersion unit db))) :
    (loadUnits db).Uses allowed := by
  unfold loadUnits
  refine Uses.seq ⟨hunits, fun reply => uses_ofExcept reply⟩ fun names => ?_
  refine (Uses.mapM fun unit _ => ?_).seq fun _ => trivial
  refine (hvalue unit).seq fun shown => ?_
  cases shown with
  | some text => exact (uses_ofExcept _).seq fun _ => trivial
  | none => exact ⟨hwarn unit, fun _ => trivial⟩

/-- Loading the rules of a database lists them and their items, and looks at each item. -/
theorem uses_loadRules_of (hrules : allowed (.children (Path.databaseRules db)))
    (hitems : ∀ rule, allowed (.children (Path.databaseRule db rule)))
    (hvalue : ∀ rule item, (Item.activeValue (Path.databaseRuleItem db rule item)).Uses allowed) :
    (loadRules db).Uses allowed := by
  unfold loadRules
  refine Uses.seq ⟨hrules, fun reply => uses_ofExcept reply⟩ fun rules => Uses.mapM fun rule _ => ?_
  refine Uses.seq ?_ fun items => uses_ofExcept _
  unfold loadRuleItems
  refine Uses.seq ⟨hitems rule, fun reply => uses_ofExcept reply⟩ fun items => ?_
  refine (Uses.mapM fun item _ => ?_).seq fun _ => trivial
  -- the text of an item is kept as it is, so nothing is left to ask
  refine (hvalue rule item).seq fun shown => ?_
  cases shown <;> trivial

/-- Loading the units of a database is about them. -/
theorem uses_loadUnits (db : String) :
    (loadUnits db).Uses (StoreRequest.Concerns (Path.storageUnits db)) :=
  uses_loadUnits_of (Access.uses_children_self (by decide)).1
    (fun _ => Access.uses_mono (Item.uses_activeValue _) (Path.isAbove_child _ _).covers)
    fun _ => trivial

/-- Loading the rules of a database is about its rules. -/
theorem uses_loadRules (db : String) :
    (loadRules db).Uses (StoreRequest.Concerns (Path.databaseRules db)) :=
  uses_loadRules_of (Access.uses_children_self (by decide)).1
    (fun _ => (Access.uses_children (Path.isAbove_child _ _)).1)
    fun rule item => Access.uses_mono (Item.uses_activeValue _)
      ((Path.isAbove_child _ rule).covers.trans (Path.isAbove_child _ item).covers)

end Stored

end ClusterCatalog
