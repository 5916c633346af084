import ClusterCatalog.Proofs.Store.Histories
import ClusterCatalog.Proofs.Store.Numbering

/-!
# Histories stay short

Where no call is refused, writing to an item takes its history from one revision to two and back to
one. This module follows the writers of items call by call. Whenever a call is made, no item has more
than two revisions (`Repository.Brief`); a revision is written only with the number after one that is
there; and no item is reported to have many versions. These are the `briefTerms`.

* `Repository.Pending` — a repository in the middle of a batch: the items whose switches are pending
  have two revisions, unless they are new, and all others are settled. Staging adds a switch
  (`Item.keeps_stage_pending`), committing takes the first one off (`Item.keeps_commitOne_pending`).
* `Access.Tidies` — an operation leaves a tidy repository tidy, unless the numbers run out. There is
  one law for each way of putting operations together, and one for the calls that touch no history
  (`Access.Tidies.of_uses`).
-/

namespace ClusterCatalog

open Plan Repository

/-! ### Terms -/

/-- **What a call has to mind**: a revision is written only if the one before it is there, nothing is
written below a revision, and no item is reported to have many versions. -/
def StoreRequest.Mindful : StoreRequest → Repository → Prop
  | persist p _, r => ∀ x : VersionedItem, x.Named → ∀ n, (Path.version x.path n).Covers p →
      p = Path.version x.path n ∧ (n ≠ 0 → Item.Present r x.path (n - 1))
  | warn w, _ => ∀ path, w ≠ .manyVersions path
  | query _, _ => True
  | children _, _ => True
  | delete _, _ => True

/-- **The terms of short histories**: whenever a call is made, the repository is brief and the call is
mindful. No call is refused. -/
abbrev briefTerms : Terms storeInterface Repository :=
  terms (fun call r => r.Brief ∧ call.Mindful r) fun _ => False

section Mindful

variable {r : Repository} {x : VersionedItem} {p : Path} {v : String}

theorem mindful_persist_version {n : Nat} (hx : x.Named) (hn : n ≠ 0 → Item.Present r x.path (n - 1)) :
    (StoreRequest.persist (Path.version x.path n) v).Mindful r := by
  intro y hy m hcovers
  obtain ⟨hpath, rfl⟩ :=
    Item.eq_of_version_covers_version VersionedItem.separate ⟨y, hy, rfl⟩ ⟨x, hx, rfl⟩ hcovers
  exact ⟨by rw [hpath], fun hm => hpath ▸ hn hm⟩

theorem mindful_persist_pointer (hx : x.Named) :
    (StoreRequest.persist (Path.activeVersion x.path) v).Mindful r := by
  intro y hy m hcovers
  have hpath : y.path = x.path := VersionedItem.separate.eq_of_covers ⟨y, hy, rfl⟩ ⟨x, hx, rfl⟩
    ((Path.isAbove_version y.path m).covers.trans hcovers) (Path.isAbove_activeVersion x.path).covers
  rw [hpath] at hcovers
  exact absurd hcovers Path.not_version_covers_activeVersion

theorem mindful_persist (hp : ∀ x : VersionedItem, x.Named → ¬ x.path.Covers p) :
    (StoreRequest.persist p v).Mindful r := fun x hx n hcovers =>
  absurd ((Path.isAbove_version x.path n).covers.trans hcovers) (hp x hx)

end Mindful

/-! ### Switches that are still to be committed -/

/-- **A history awaits a switch**: there is the active revision and the one to become active, or the
switch is that of a first revision, which is active already. -/
def History.Awaits (e : History) (switch : PendingSwitch) : Prop :=
  switch.current < switch.next ∧ e = ⟨[switch.next, switch.current], some switch.current⟩
    ∨ switch.current = switch.next ∧ e = .settled (some switch.next)

theorem History.Awaits.length_le {e : History} {switch : PendingSwitch} (h : e.Awaits switch) :
    e.revisions.length ≤ 2 := by
  rcases h with ⟨-, rfl⟩ | ⟨-, rfl⟩
  · exact Nat.le_refl 2
  · exact Nat.le_succ 1

/-- **Switches are pending**: each is awaited by an item of its own, and all other items are
settled. -/
structure Histories.Pending (h : Histories) (switches : List PendingSwitch) : Prop where
  nodup : (switches.map (·.path)).Nodup
  awaits : ∀ switch ∈ switches, ∃ x : VersionedItem,
    x.Named ∧ switch.path = x.path ∧ (h x).Awaits switch
  settled : ∀ x : VersionedItem, x.Named → x.path ∉ switches.map (·.path) →
    ∃ active, h x = .settled active

namespace Histories.Pending

variable {h : Histories} {x : VersionedItem} {e : History} {switch : PendingSwitch}
  {switches : List PendingSwitch}

/-- While switches are due, the histories are short. -/
theorem short (hp : h.Pending switches) : h.Short := by
  intro x hx
  -- an item whose switch is due has two revisions, all others at most one
  by_cases hmem : x.path ∈ switches.map (·.path)
  · obtain ⟨switch, hswitch, hpath⟩ := List.mem_map.1 hmem
    obtain ⟨y, hy, hy', hawaits⟩ := hp.awaits switch hswitch
    obtain rfl : x = y := VersionedItem.path_inj hx hy (hpath.symm.trans hy')
    exact hawaits.length_le
  · obtain ⟨active, hactive⟩ := hp.settled x hx hmem
    rw [hactive]
    cases active <;> exact Nat.le_of_ble_eq_true rfl

theorem nil_iff : h.Pending [] ↔ h.Settled :=
  ⟨fun hp x hx => hp.settled x hx List.not_mem_nil,
    fun hs => ⟨List.nodup_nil, fun _ hd => absurd hd List.not_mem_nil, fun x hx _ => hs x hx⟩⟩

/-- One more switch is pending. -/
theorem concat (hp : h.Pending switches) (hx : x.Named) (hnew : x.path ∉ switches.map (·.path))
    (hpath : switch.path = x.path) (hawaits : e.Awaits switch) :
    Pending (Function.update h x e) (switches ++ [switch]) where
  nodup := by
    rw [List.map_append, List.map_singleton, List.nodup_append, hpath]
    refine ⟨hp.nodup, List.pairwise_singleton _ _, fun p hp' q hq heq => hnew ?_⟩
    rw [← List.mem_singleton.1 hq, ← heq]
    exact hp'
  awaits d hd := by
    -- a switch of before is about another item, whose history was not touched
    rcases List.mem_append.1 hd with hd | hd
    · obtain ⟨y, hy, hypath, hyawaits⟩ := hp.awaits d hd
      have hne : y ≠ x := fun heq => hnew (heq ▸ hypath ▸ List.mem_map_of_mem hd)
      exact ⟨y, hy, hypath, by rwa [Function.update_of_ne hne]⟩
    · obtain rfl := List.mem_singleton.1 hd
      exact ⟨x, hx, hpath, by rwa [Function.update_self]⟩
  settled y hy hmem := by
    rw [List.map_append, List.mem_append, not_or] at hmem
    have hne : y ≠ x := fun heq => hmem.2 (by simp [heq, hpath])
    rw [Function.update_of_ne hne]
    exact hp.settled y hy hmem.1

/-- The first switch is no longer pending, once its item is settled. -/
theorem tail (hp : h.Pending (switch :: switches)) (hx : x.Named) (hpath : switch.path = x.path)
    {active : Option Nat} : Pending (Function.update h x (.settled active)) switches := by
  have hnodup := List.nodup_cons.1 hp.nodup
  refine ⟨hnodup.2, fun d hd => ?_, fun y hy hmem => ?_⟩
  · obtain ⟨y, hy, hypath, hyawaits⟩ := hp.awaits d (List.mem_cons_of_mem _ hd)
    -- the switches are about different items, so committing one leaves the others due
    have hne : y ≠ x := by
      rintro rfl
      refine hnodup.1 (List.mem_map.2 ⟨d, hd, hypath.trans hpath.symm⟩)
    exact ⟨y, hy, hypath, by rwa [Function.update_of_ne hne]⟩
  · by_cases heq : y = x
    · subst heq
      exact ⟨active, Function.update_self ..⟩
    · rw [Function.update_of_ne heq]
      refine hp.settled y hy ?_
      rw [List.map_cons, List.mem_cons, not_or, hpath]
      exact ⟨fun h => heq (VersionedItem.path_inj hy hx h), hmem⟩

end Histories.Pending

namespace Repository

/-- **A repository in the middle of a batch**: the given switches are still to be committed. -/
def Pending (r : Repository) (switches : List PendingSwitch) : Prop :=
  ∃ h : Histories, h.Hold r ∧ h.Pending switches

/-- **The numbers of an item have run out.** -/
def Full (r : Repository) : Prop := ∃ x : VersionedItem, x.Named ∧ Item.Present r x.path maxRevision

variable {r : Repository} {switches : List PendingSwitch}

theorem pending_nil_iff : r.Pending [] ↔ r.Tidy :=
  exists_congr fun _ => and_congr_right fun _ => Histories.Pending.nil_iff

end Repository

/-! ### The calls of a writer -/

namespace Item

variable {r : Repository} {h : Histories} {x : VersionedItem} {n : Nat} {v : String}

/-- Listing the revisions of an item with a short history gives just these. -/
theorem keeps_revisions_brief {post : Except Failure (List Nat) → Repository → Prop}
    (hr : h.Hold r) (hshort : h.Short) (hx : x.Named) (hnodup : (h x).revisions.Nodup)
    (hpost : ∀ found : List Nat, found.Perm (h x).revisions → post (.ok found) r) :
    (revisions x.path).Keeps briefTerms post r := by
  obtain ⟨found, hfound, hperm⟩ := (hr x hx).exists_numbers hnodup
  unfold revisions
  rw [keeps_bind, Access.keeps_children]
  refine ⟨⟨⟨h, hr, hshort⟩, trivial⟩, ?_, fun _ he => he.elim⟩
  show ((r.children (Path.versions x.path)).mapM (parseRevision (Path.versions x.path))
    >>= _).Keeps _ _ _
  rw [mapM_parseRevision, keeps_bind, keeps_ofResult]
  change Then _ _ _ (numbers r x.path) r
  rw [hfound]
  show (if found.length > 2 then _ else _ : Access (List Nat)).Keeps _ _ _
  -- a short history gives no warning
  rw [if_neg (Nat.not_lt.2 (hperm.length_eq ▸ hshort x hx))]
  exact hpost found hperm

theorem keeps_active_brief {post : Except Failure (Option Nat) → Repository → Prop}
    (hr : h.Hold r) (hshort : h.Short) (hx : x.Named)
    (hactive : ∀ n, (h x).active = some n → n ∈ (h x).revisions) (hpost : post (.ok (h x).active) r) :
    (active x.path).Keeps briefTerms post r := by
  refine keeps_active ⟨⟨h, hr, hshort⟩, trivial⟩ (fun _ he => he.elim) ?_
  rw [(hr x hx).pointer hactive]
  exact hpost

variable {post : Except Failure Unit → Repository → Prop}

theorem keeps_persist_version_brief (hr : h.Hold r) (hshort : h.Short) (hx : x.Named)
    (hn : n ≤ maxRevision) (hpred : n ≠ 0 → n - 1 ∈ (h x).revisions)
    (hpost : ∀ r', Histories.Hold (Function.update h x ⟨n :: (h x).revisions, (h x).active⟩) r' →
      post (.ok ()) r') :
    (Access.persist (Path.version x.path n) v).Keeps briefTerms post r :=
  Access.keeps_persist.2 ⟨⟨⟨h, hr, hshort⟩,
    mindful_persist_version hx fun hne => ((hr x hx).present_iff _).2 (hpred hne)⟩,
    hpost _ (hr.persist_version hx hn), fun _ he => he.elim⟩

theorem keeps_persist_pointer_brief (hr : h.Hold r) (hshort : h.Short) (hx : x.Named)
    (hne : (h x).revisions ≠ [])
    (hpost : ∀ r', Histories.Hold (Function.update h x ⟨(h x).revisions, some n⟩) r' →
      post (.ok ()) r') :
    (Access.persist (Path.activeVersion x.path) (toString n)).Keeps briefTerms post r :=
  Access.keeps_persist.2 ⟨⟨⟨h, hr, hshort⟩, mindful_persist_pointer hx⟩,
    hpost _ (hr.persist_pointer hx hne n), fun _ he => he.elim⟩

theorem keeps_delete_version_brief (hr : h.Hold r) (hshort : h.Short) (hx : x.Named)
    (hother : ∃ m ∈ (h x).revisions, m ≠ n)
    (hpost : ∀ r', Histories.Hold
      (Function.update h x ⟨(h x).revisions.filter (· ≠ n), (h x).active⟩) r' → post (.ok ()) r') :
    (Access.delete (Path.version x.path n)).Keeps briefTerms post r :=
  Access.keeps_delete.2 ⟨⟨⟨h, hr, hshort⟩, trivial⟩, hpost _ (hr.delete_version hx hother),
    fun _ he => he.elim⟩

/-! ### Staging and committing -/

variable {switch : PendingSwitch} {switches : List PendingSwitch}

/-- How staging an item ends: its switch is pending, or its numbers have run out. -/
def Stages (x : VersionedItem) (switches : List PendingSwitch) :
    Except Failure PendingSwitch → Repository → Prop
  | .ok switch, r => switch.path = x.path ∧ r.Pending (switches ++ [switch])
  | .error f, r => f = .overflow ∧ r.Full

/-- What is left of staging once the number of the revision is known. -/
def stageAs (path : Path) (value : String) (next : Nat) : Access PendingSwitch := do
  Access.persist (Path.version path next) value
  match ← active path with
  | some current => return ⟨path, current, next⟩
  | none =>
    Access.persist (Path.activeVersion path) (toString next)
    return ⟨path, next, next⟩

theorem stage_eq (path : Path) (value : String) :
    stage path value = (revisions path >>= fun found =>
      Plan.ofResult (nextRevision found) >>= stageAs path value) := rfl

/-- An item without revisions gets one that is active at once. -/
theorem keeps_stage_first (hr : h.Hold r) (hp : h.Pending switches) (hx : x.Named)
    (hnew : x.path ∉ switches.map (·.path)) (hhistory : h x = .settled none) (v : String) :
    (stageAs x.path v 0).Keeps briefTerms (Stages x switches) r := by
  unfold stageAs
  rw [keeps_bind]
  refine keeps_persist_version_brief hr hp.short hx (Nat.zero_le _) (fun hne => absurd rfl hne)
    fun r₁ hr₁ => ?_
  rw [hhistory] at hr₁
  have hshort₁ := hp.short.update (x := x) (e := ⟨[0], none⟩) (Nat.le_succ 1)
  show (active x.path >>= _).Keeps _ _ _
  rw [keeps_bind]
  refine keeps_active_brief hr₁ hshort₁ hx ?_ ?_
  · rw [Function.update_self]
    exact fun _ h => by cases h
  rw [Function.update_self]
  show (Access.persist (Path.activeVersion x.path) (toString 0) >>= _).Keeps _ _ _
  rw [keeps_bind]
  refine keeps_persist_pointer_brief hr₁ hshort₁ hx ?_ fun r₂ hr₂ => ?_
  · rw [Function.update_self]
    exact List.cons_ne_nil _ _
  rw [Function.update_self, Function.update_idem] at hr₂
  -- nothing is left to switch, and the item is settled already
  exact ⟨rfl, _, hr₂, hp.concat hx hnew rfl (.inr ⟨rfl, rfl⟩)⟩

/-- An item with one revision gets the next one beside it. -/
theorem keeps_stage_next {next : Nat} (hr : h.Hold r) (hp : h.Pending switches) (hx : x.Named)
    (hnew : x.path ∉ switches.map (·.path)) (hhistory : h x = .settled (some n))
    (hnext : nextRevision [n] = .ok next) (v : String) :
    (stageAs x.path v next).Keeps briefTerms (Stages x switches) r := by
  have hlt := (lt_of_nextRevision hnext).2 n (List.mem_singleton_self n)
  -- the numbers go on without a gap, and the item has two revisions until the switch is committed
  have hpred : next - 1 ∈ (h x).revisions := by
    rw [hhistory]
    exact pred_mem_of_nextRevision hnext (Nat.ne_zero_of_lt hlt)
  unfold stageAs
  rw [keeps_bind]
  refine keeps_persist_version_brief hr hp.short hx (lt_of_nextRevision hnext).1 (fun _ => hpred)
    fun r₁ hr₁ => ?_
  rw [hhistory] at hr₁
  have hshort₁ := hp.short.update (x := x) (e := ⟨[next, n], some n⟩) (Nat.le_refl 2)
  show (active x.path >>= _).Keeps _ _ _
  rw [keeps_bind]
  refine keeps_active_brief hr₁ hshort₁ hx ?_ ?_
  · rw [Function.update_self]
    rintro _ h
    cases h
    exact List.mem_cons_of_mem _ (List.mem_singleton_self n)
  rw [Function.update_self]
  exact ⟨rfl, _, hr₁, hp.concat hx hnew rfl (.inl ⟨hlt, rfl⟩)⟩

/-- **Staging a revision** of a settled item adds a switch to those that are pending. -/
theorem keeps_stage_pending (hr : r.Pending switches) (hx : x.Named)
    (hnew : x.path ∉ switches.map (·.path)) (v : String) :
    (stage x.path v).Keeps briefTerms (Stages x switches) r := by
  obtain ⟨h, hr, hp⟩ := hr
  obtain ⟨active, hactive⟩ := hp.settled x hx hnew
  have hrevisions : (h x).revisions = active.toList := by rw [hactive]; rfl
  rw [stage_eq, keeps_bind]
  refine keeps_revisions_brief hr hp.short hx ?_ fun found hperm => ?_
  · rw [hrevisions]
    cases active <;> simp
  show (Plan.ofResult (nextRevision found) >>= _).Keeps _ _ _
  rw [keeps_bind, keeps_ofResult]
  rw [hrevisions] at hperm
  cases active with
  | none =>
    obtain rfl := List.perm_nil.1 hperm
    exact keeps_stage_first hr hp hx hnew hactive v
  | some n =>
    obtain rfl := List.perm_singleton.1 hperm
    cases hnext : nextRevision [n] with
    -- only the greatest number has none after it
    | error f =>
      obtain ⟨rfl, hmax⟩ := eq_of_nextRevision_eq_error
        (fun m hm => (hr x hx).le_maxRevision (hrevisions ▸ hm)) hnext
      exact ⟨rfl, x, hx, ((hr x hx).present_iff _).2 (hrevisions ▸ hmax)⟩
    | ok next => exact keeps_stage_next hr hp hx hnew hactive hnext v

/-- **Pruning** an item with two revisions removes the lower one. -/
theorem keeps_prune_brief {current next : Nat} (hr : h.Hold r) (hshort : h.Short) (hx : x.Named)
    (hlt : current < next) (hhistory : h x = ⟨[next, current], some next⟩)
    (hpost : ∀ r', Histories.Hold (Function.update h x (.settled (some next))) r' →
      post (.ok ()) r') :
    (prune ⟨x.path, current, next⟩).Keeps briefTerms post r := by
  have hne : next ≠ current := Nat.ne_of_gt hlt
  unfold prune
  rw [keeps_bind, keeps_attempt]
  refine keeps_revisions_brief hr hshort hx ?_ fun found hperm => ?_
  · rw [hhistory]
    simp [hne]
  rw [hhistory] at hperm
  -- of the two revisions, the one that was active until now goes
  have hfilter : found.filter (· < next) = [current] := by
    have hpermFilter := hperm.filter (· < next)
    rw [List.filter_cons_of_neg (by simp), List.filter_cons_of_pos (by simpa using hlt)] at hpermFilter
    exact List.perm_singleton.1 hpermFilter
  show ((found.filter (· < next)).forM _ : Access Unit).Keeps _ _ _
  rw [hfilter, forM_singleton, keeps_bind, keeps_attempt]
  refine keeps_delete_version_brief hr hshort hx ⟨next, ?_, hne⟩ fun r' hr' => hpost r' ?_
  · rw [hhistory]
    exact List.mem_cons_self
  rw [hhistory, List.filter_cons_of_pos (by simpa using hne), List.filter_cons_of_neg (by simp)] at hr'
  exact hr'

/-- **Committing the first of the pending switches** settles its item. -/
theorem keeps_commitOne_pending (hr : r.Pending (switch :: switches)) :
    (commitOne switch).Keeps briefTerms (fun result r' => result = .ok () ∧ r'.Pending switches) r := by
  obtain ⟨h, hr, hp⟩ := hr
  obtain ⟨x, hx, hpath, hawaits⟩ := hp.awaits switch List.mem_cons_self
  unfold commitOne
  -- a switch that changes nothing is that of a new item
  rcases hawaits with ⟨hlt, hawaits⟩ | ⟨heq, hawaits⟩
  · rw [if_pos (by simpa [PendingSwitch.isRequired] using Nat.ne_of_lt hlt)]
    obtain ⟨path, current, next⟩ := switch
    obtain rfl : path = x.path := hpath
    rw [keeps_bind]
    refine keeps_persist_pointer_brief hr hp.short hx ?_ fun r₁ hr₁ => ?_
    · rw [hawaits]
      exact List.cons_ne_nil _ _
    rw [hawaits] at hr₁
    refine keeps_prune_brief hr₁ (hp.short.update (Nat.le_refl 2)) hx hlt (Function.update_self ..)
      fun r₂ hr₂ => ?_
    rw [Function.update_idem] at hr₂
    exact ⟨rfl, _, hr₂, hp.tail hx rfl⟩
  · rw [if_neg (by simpa [PendingSwitch.isRequired] using heq)]
    have hsame : Function.update h x (.settled (some switch.next)) = h := by
      rw [← hawaits, Function.update_eq_self]
    exact ⟨rfl, h, hr, hsame ▸ hp.tail hx hpath⟩

/-- **Committing all pending switches** leaves the repository tidy. -/
theorem keeps_commit_pending (hr : r.Pending switches) :
    (commit switches).Keeps briefTerms (fun result r' => result = .ok () ∧ r'.Tidy) r :=
  Keeps.forM (fun rest r => r.Pending rest) hr
    (fun _ _ _ hs => (keeps_commitOne_pending hs).mono fun _ _ h => by
      obtain ⟨rfl, hs'⟩ := h
      exact hs')
    fun _ hs => ⟨rfl, pending_nil_iff.1 hs⟩

/-- How staging items ends: their switches are pending after those that were, or the numbers of one of
them have run out. -/
def StagesAll (switches : List PendingSwitch) :
    Except Failure (List PendingSwitch) → Repository → Prop
  | .ok later, r => r.Pending (switches ++ later)
  | .error f, r => f = .overflow ∧ r.Full

/-- **Staging items** one after the other adds their switches in order. -/
theorem keeps_mapM_stage_pending {β : Type} {item : β → VersionedItem} {value : β → String} {l : List β}
    (hr : r.Pending switches) (hl : ∀ b ∈ l, (item b).Named)
    (hnodup : (switches.map (·.path) ++ l.map fun b => (item b).path).Nodup) :
    (l.mapM fun b => stage (item b).path (value b)).Keeps briefTerms (StagesAll switches) r := by
  induction l generalizing r switches with
  | nil =>
    show r.Pending (switches ++ [])
    rwa [List.append_nil]
  | cons b l ih =>
    rw [List.forall_mem_cons] at hl
    have hnew : (item b).path ∉ switches.map (·.path) := fun hmem =>
      (List.nodup_append.1 hnodup).2.2 _ hmem _ List.mem_cons_self rfl
    rw [List.mapM_cons]
    -- the first switch is pending while the others are staged
    refine (keeps_stage_pending hr hl.1 hnew (value b)).bind (fun switch r₁ h₁ => ?_) fun _ _ h => h
    obtain ⟨hpath, hr₁⟩ := h₁
    refine (ih hr₁ hl.2 ?_).bind (fun later r₂ h₂ => ?_) fun _ _ h => h
    · rwa [List.map_append, List.map_singleton, hpath, ← List.append_cons]
    · show r₂.Pending (switches ++ switch :: later)
      rwa [List.append_cons]

end Item

/-! ### Operations that leave a repository tidy -/

/-- **How an operation ends** on a tidy repository: it is tidy, unless numbers have run out. -/
def Repository.Settles {α : Type} (result : Except Failure α) (r : Repository) : Prop :=
  r.Tidy ∨ result = .error .overflow ∧ r.Full

/-- **An operation tidies**: on a tidy repository it makes its calls on the terms of short histories,
and leaves it tidy. -/
def Access.Tidies {α : Type} (p : Access α) : Prop :=
  ∀ r : Repository, r.Tidy → p.Keeps briefTerms Settles r

/-- **A call touches no history**, or it ends some as a whole. -/
def StoreRequest.Harmless : StoreRequest → Prop
  | persist p _ => ∀ x : VersionedItem, x.Named → ¬ x.path.Covers p
  | delete p => VersionedItem.Uprooting p
  | warn w => ∀ path, w ≠ .manyVersions path
  | query _ => True
  | children _ => True

theorem StoreRequest.Harmless.mindful {call : StoreRequest} (h : call.Harmless) (r : Repository) :
    call.Mindful r := by
  cases call with
  | persist p v => exact mindful_persist h
  | warn w => exact h
  | query p => trivial
  | children p => trivial
  | delete p => trivial

/-- A harmless call leaves a repository tidy. -/
theorem Repository.Tidy.answer {r : Repository} (hr : r.Tidy) {call : StoreRequest}
    (hcall : call.Harmless) : (answer call r).2.Tidy := by
  obtain ⟨h, hr, hsettled⟩ := hr
  cases call with
  | persist p v => exact ⟨h, hr.persist_of_not_covers hcall v, hsettled⟩
  | delete p => exact ⟨h.without p, hr.delete hcall, hsettled.without p⟩
  | query p => exact ⟨h, hr, hsettled⟩
  | children p => exact ⟨h, hr, hsettled⟩
  | warn w => exact ⟨h, hr, hsettled⟩

namespace Access.Tidies

variable {α β : Type}

theorem pure (a : α) : Tidies (Pure.pure a : Access α) := fun _ hr => .inl hr

theorem seq {p : Access α} {f : α → Access β} (hp : Tidies p) (hf : ∀ a, Tidies (f a)) :
    Tidies (p >>= f) := by
  intro r hr
  refine (hp r hr).bind (fun a r' hr' => hf a r' ?_) fun f r' hr' => ?_
  · exact hr'.resolve_right fun h => by cases h.1
  · exact hr'.imp_right fun ⟨hf, hfull⟩ => by cases hf; exact ⟨rfl, hfull⟩

theorem forM {f : α → Access Unit} {l : List α} (h : ∀ a ∈ l, Tidies (f a)) : Tidies (l.forM f) := by
  induction l with
  | nil => exact pure ()
  | cons a l ih =>
    exact (h a List.mem_cons_self).seq fun _ => ih fun b hb => h b (List.mem_cons_of_mem _ hb)

/-- **Harmless calls** leave a repository tidy. -/
theorem of_uses {p : Access α} (h : p.Uses StoreRequest.Harmless) : Tidies p := by
  intro r hr
  induction p generalizing r with
  | done a => exact .inl hr
  | stop f => exact .inl hr
  | ask call k ih =>
    refine Access.keeps_ask_iff.2 ⟨⟨hr.brief, h.1.mindful r⟩, ?_, fun _ he => he.elim⟩
    exact ih _ (h.2 _) _ (hr.answer h.1)

theorem persist {p : Path} (hp : ∀ x : VersionedItem, x.Named → ¬ x.path.Covers p) (v : String) :
    Tidies (Access.persist p v) :=
  of_uses ⟨hp, fun reply => uses_ofExcept reply⟩

theorem delete {p : Path} (hp : VersionedItem.Uprooting p) : Tidies (Access.delete p) :=
  of_uses ⟨hp, fun reply => uses_ofExcept reply⟩

/-- **Replacing items** leaves the repository tidy. -/
theorem replace (item : β → VersionedItem) (value : β → String) {l : List β}
    (hl : ∀ b ∈ l, (item b).Named) (hdistinct : l.Pairwise fun a b => item a ≠ item b) :
    Tidies ((l.mapM fun b => Item.stage (item b).path (value b)) >>= Item.commit) := by
  intro r hr
  -- no item is staged twice, since different items have different paths
  have hnodup : (l.map fun b => (item b).path).Nodup :=
    List.pairwise_map.2 (hdistinct.imp_of_mem fun ha hb hne heq =>
      hne (VersionedItem.path_inj (hl _ ha) (hl _ hb) heq))
  refine (Item.keeps_mapM_stage_pending (pending_nil_iff.2 hr) hl hnodup).bind
    (fun switches r₁ hr₁ => ?_) fun f r₁ hr₁ => .inr ?_
  · exact (Item.keeps_commit_pending hr₁).mono fun _ _ h => .inl h.2
  · exact ⟨congrArg Except.error hr₁.1, hr₁.2⟩

/-- **Publishing a text** leaves the repository tidy. -/
theorem publish {x : VersionedItem} (hx : x.Named) (v : String) : Tidies (Item.publish x.path v) := by
  intro r hr
  unfold Item.publish
  refine (Item.keeps_stage_pending (pending_nil_iff.2 hr) hx List.not_mem_nil v).bind
    (fun switch r₁ hr₁ => ?_) fun f r₁ hr₁ => .inr ?_
  · refine (Item.keeps_commit_pending hr₁.2).bind (fun _ r₂ hr₂ => .inl hr₂.2) fun f r₂ hr₂ => ?_
    cases hr₂.1
  · exact ⟨congrArg Except.error hr₁.1, hr₁.2⟩

end Access.Tidies

end ClusterCatalog
