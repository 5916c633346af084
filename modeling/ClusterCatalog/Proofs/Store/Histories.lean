import Mathlib.Logic.Function.Basic
import ClusterCatalog.Proofs.Store.Layout
import ClusterCatalog.Proofs.Store.Orderly

/-!
# Histories of items

What is there of a versioned item is its **history**: the numbers of its revisions, and the one that its
pointer names. `Histories.Hold` says of a whole repository what the histories of its items are, and there
is one law for each call that an operation makes:

* a revision is written (`Histories.Hold.persist_version`), the pointer is moved
  (`Histories.Hold.persist_pointer`), a revision is removed (`Histories.Hold.delete_version`) — the
  history of one item changes;
* a node is written that no item covers (`Histories.Hold.persist_of_not_covers`) — none changes;
* a node is removed with the items that it holds (`Histories.Hold.delete`) — the history of these ends.

A history is **settled** if it is that of an item that is not there, or has one revision, which is the
active one.
-/

namespace ClusterCatalog

open Plan Repository

/-- **The history of an item**: the numbers of its revisions, and the one that is active. -/
structure History where
  revisions : List Nat
  active : Option Nat

namespace History

/-- The history of an item without revisions. -/
def none : History := ⟨[], .none⟩

/-- The history of an item whose only revision is the active one, or that is not there. -/
def settled (active : Option Nat) : History := ⟨active.toList, active⟩

end History

namespace Item

variable {r r' : Repository} {path : Path} {e : History} {n : Nat} {v : String}

/-- **An item has a history.** There is a node for it just if it has revisions. -/
structure Has (r : Repository) (path : Path) (e : History) : Prop where
  numbered : Numbered r path
  present_iff : ∀ n, Present r path n ↔ n ∈ e.revisions
  pointer_text : text r (Path.activeVersion path) = (e.active.map toString).getD ""
  isSome_iff : (r.query path).isSome ↔ e.revisions ≠ []

/-- Where there is no node at all, the item has no history. -/
theorem has_none_of_none (h : ∀ q, path.Covers q → r.query q = none) : Has r path .none where
  numbered := (orderly_of_none fun q hq => h q hq.covers).numbered
  present_iff n := by
    rw [Present, h _ (Path.isAbove_version path n).covers]
    exact iff_of_false Bool.false_ne_true List.not_mem_nil
  pointer_text := by
    rw [text, h _ (Path.isAbove_activeVersion path).covers]
    rfl
  isSome_iff := by
    rw [h _ (.refl _)]
    exact iff_of_false Bool.false_ne_true fun hne => hne rfl

/-- A history is read off what is at and below the item. -/
theorem Has.congr (h : Has r path e) (hsame : SameAt path r r') : Has r' path e where
  numbered name hname hsome :=
    h.numbered name hname (hsame _ ((Path.isAbove_versions path).covers.trans
      (Path.isAbove_child _ _).covers) ▸ hsome)
  present_iff n := by
    rw [Present, hsame _ (Path.isAbove_version path n).covers]
    exact h.present_iff n
  pointer_text := by
    rw [text, hsame _ (Path.isAbove_activeVersion path).covers]
    exact h.pointer_text
  isSome_iff := by
    rw [hsame _ (.refl _)]
    exact h.isSome_iff

/-! ### What is read of a history -/

/-- Listings of numbered revisions name each of them once. -/
theorem Numbered.nodup (h : Numbered r path) {found : List Nat} (hfound : numbers r path = .ok found) :
    found.Nodup := by
  rw [eq_of_numbers_eq_ok hfound, children_tree]
  have hnodup : (r.tree.children (Path.versions path)).Pairwise (· ≠ ·) :=
    (r.tree.children_ascending (Path.versions path)).imp ne_of_lt
  refine (List.pairwise_filterMap.2 (hnodup.imp_of_mem fun ha hb hne m hm m' hm' heq => hne ?_))
  -- two names of one number are both its canonical numeral
  have hcanonical : ∀ {name : String} {m : Nat}, name ∈ r.tree.children (Path.versions path) →
      revisionOf? name = some m → name = toString m := by
    intro name m hname hm
    rw [← children_tree, mem_children_versions_iff] at hname
    obtain ⟨k, hk, rfl⟩ := h name hname.1 hname.2
    rw [revisionOf?_toString hk] at hm
    rw [Option.some.inj hm]
  rw [hcanonical ha hm, hcanonical hb hm', heq]

/-- **The revisions of a history are those that are listed.** -/
theorem Has.exists_numbers (h : Has r path e) (hnodup : e.revisions.Nodup) :
    ∃ found, numbers r path = .ok found ∧ found.Perm e.revisions := by
  obtain ⟨found, hfound⟩ := h.numbered.exists_numbers
  refine ⟨found, hfound, (List.perm_ext_iff_of_nodup (h.numbered.nodup hfound) hnodup).2 fun n => ?_⟩
  exact (h.numbered.mem_iff hfound).trans (h.present_iff n)

/-- No more numbers are listed than a history has. -/
theorem Has.length_le (h : Has r path e) {found : List Nat} (hfound : numbers r path = .ok found) :
    found.length ≤ e.revisions.length :=
  (List.subperm_of_subset (h.numbered.nodup hfound) fun n hn =>
    (h.present_iff n).1 ((h.numbered.mem_iff hfound).1 hn)).length_le

theorem Has.le_maxRevision (h : Has r path e) (hn : n ∈ e.revisions) : n ≤ maxRevision :=
  h.numbered.le ((h.present_iff n).2 hn)

/-- **The active revision of a history is the one that the pointer names.** -/
theorem Has.pointer (h : Has r path e) (hactive : ∀ n, e.active = some n → n ∈ e.revisions) :
    pointer r path = .ok e.active := by
  have htext := h.pointer_text
  cases hcase : e.active with
  | none =>
    rw [hcase] at htext
    exact pointer_of_text_eq_empty htext
  | some n =>
    rw [hcase] at htext
    exact pointer_of_text_eq htext (h.le_maxRevision (hactive n hcase))

/-- **Listing the revisions** of an item lists those of its history. -/
theorem Has.run_revisions (h : Has r path e) :
    ∃ found, (Item.revisions path).run answer r = (.ok found, r)
      ∧ found.length ≤ e.revisions.length ∧ (e.revisions.Nodup → found.Perm e.revisions) := by
  obtain ⟨l, hl⟩ := h.numbered.exists_numbers
  have hkeeps : (Item.revisions path).Keeps sure
      (fun result r' => ∃ found, result = .ok found ∧ r' = r ∧ found.Perm l) r := by
    refine keeps_revisions trivial trivial (fun _ he => he.elim) (fun f hf => ?_)
      fun l' found hl' hperm => ⟨found, rfl, rfl, ?_⟩
    · rw [hl] at hf
      cases hf
    · rw [hl] at hl'
      exact Except.ok.inj hl' ▸ hperm
  -- without refusals, this is what the run ends with
  obtain ⟨found, hresult, hsame, hperm⟩ := Access.keeps_run_iff.1 hkeeps
  refine ⟨found, Prod.ext hresult hsame, hperm.length_eq ▸ h.length_le hl, fun hnodup => ?_⟩
  obtain ⟨l', hl', hperm'⟩ := h.exists_numbers hnodup
  rw [hl] at hl'
  exact hperm.trans (Except.ok.inj hl' ▸ hperm')

/-- **A settled item** is read as one revision, the active one, or as none if it is not there. -/
theorem Has.run_of_settled {active : Option Nat} (h : Has r path (.settled active)) :
    (Item.revisions path).run answer r = (.ok active.toList, r)
      ∧ (Item.active path).run answer r = (.ok active, r)
      ∧ (active.isSome ↔ (r.query path).isSome) := by
  obtain ⟨found, hrun, -, hperm⟩ := h.run_revisions
  -- the revisions are a permutation of one number, or of none
  have hfound : found = active.toList := by
    cases active with
    | none => exact List.perm_nil.1 (hperm List.nodup_nil)
    | some n => exact List.perm_singleton.1 (hperm (List.pairwise_singleton _ n))
  have hpointer : Item.pointer r path = .ok active := h.pointer fun n hn => by
    obtain rfl : active = some n := hn
    exact List.mem_singleton_self n
  refine ⟨hfound ▸ hrun, hpointer ▸ (reads_active path).run, ?_⟩
  -- the node is there exactly if there is a revision
  rw [h.isSome_iff]
  cases active with
  | none => exact iff_of_false Bool.false_ne_true fun hne => hne rfl
  | some n => exact iff_of_true rfl (List.cons_ne_nil _ _)

/-! ### How a history changes -/

/-- Writing a revision adds its number. -/
theorem Has.persist_version (h : Has r path e) (hpath : path ≠ "") (hn : n ≤ maxRevision) :
    Has (r.persist (Path.version path n) v) path ⟨n :: e.revisions, e.active⟩ where
  numbered := h.numbered.persist_version (separate_eq path) rfl rfl hn
  present_iff m := by
    rw [present_persist_version, h.present_iff, List.mem_cons]
  pointer_text := by
    rw [text_persist Path.version_ne_activeVersion.symm]
    exact h.pointer_text
  isSome_iff := by
    refine ⟨fun _ => List.cons_ne_nil _ _, fun _ => ?_⟩
    exact isSome_query_persist_of_covers _ _ _ hpath (Path.isAbove_version path n).covers

theorem Has.persist_pointer (h : Has r path e) (hne : e.revisions ≠ []) (n : Nat) :
    Has (r.persist (Path.activeVersion path) (toString n)) path ⟨e.revisions, some n⟩ where
  numbered := h.numbered.persist_pointer (separate_eq path) rfl rfl
  present_iff m := by rw [present_persist_pointer, h.present_iff]
  pointer_text := text_persist_self _
  isSome_iff := ⟨fun _ => hne, fun _ => isSome_query_persist _ _ _ (h.isSome_iff.2 hne)⟩

/-- A revision is removed while another one is there. -/
theorem Has.delete_version (h : Has r path e) (hother : ∃ m ∈ e.revisions, m ≠ n) :
    Has (r.delete (Path.version path n)) path ⟨e.revisions.filter (· ≠ n), e.active⟩ where
  numbered := h.numbered.delete_version
  present_iff m := by
    rw [present_delete_version, h.present_iff, List.mem_filter]
    simp [and_comm]
  pointer_text := by
    rw [text_delete_version_activeVersion]
    exact h.pointer_text
  -- another revision is left, so the node of the item stays
  isSome_iff := by
    obtain ⟨m, hm, hne⟩ := hother
    rw [query_delete_version, if_neg (Path.isAbove_version path n).not_covers, h.isSome_iff]
    exact ⟨fun _ => List.ne_nil_of_mem (List.mem_filter.2 ⟨hm, by simpa using hne⟩),
      fun _ => List.ne_nil_of_mem hm⟩

end Item

/-! ### All items -/

/-- **The histories** of all items. -/
abbrev Histories := VersionedItem → History

namespace Histories

variable {h : Histories} {r r' : Repository} {x : VersionedItem} {e : History} {n : Nat} {v : String}

/-- **A repository has histories**: each item has its own. -/
def Hold (h : Histories) (r : Repository) : Prop := ∀ x : VersionedItem, x.Named → Item.Has r x.path (h x)

theorem hold_of_nodes_eq_empty (hr : r.nodes = ∅) : Hold (fun _ => .none) r := fun _ _ =>
  Item.has_none_of_none fun q _ => query_of_nodes_eq_empty hr q

/-- The history of one item changes, and nothing else that belongs to an item. -/
theorem Hold.update (hr : h.Hold r) (hx : x.Named) (hitem : Item.Has r' x.path e)
    (hsame : ∀ root, x.path.Apart root → SameAt root r r') : Hold (Function.update h x e) r' := by
  intro y hy
  -- the other items are apart from this one, and so they are as before
  by_cases heq : y = x
  · subst heq
    rw [Function.update_self]
    exact hitem
  · rw [Function.update_of_ne heq]
    exact (hr y hy).congr (hsame y.path (VersionedItem.apart hx hy (Ne.symm heq)))

/-- **A revision is written.** -/
theorem Hold.persist_version (hr : h.Hold r) (hx : x.Named) (hn : n ≤ maxRevision) :
    Hold (Function.update h x ⟨n :: (h x).revisions, (h x).active⟩)
      (r.persist (Path.version x.path n) v) :=
  hr.update hx ((hr x hx).persist_version x.path_ne_empty hn) fun _ hapart =>
    sameAt_persist hapart (Path.isAbove_version x.path n).covers v

/-- **The pointer is moved.** -/
theorem Hold.persist_pointer (hr : h.Hold r) (hx : x.Named) (hne : (h x).revisions ≠ []) (n : Nat) :
    Hold (Function.update h x ⟨(h x).revisions, some n⟩)
      (r.persist (Path.activeVersion x.path) (toString n)) :=
  hr.update hx ((hr x hx).persist_pointer hne n) fun _ hapart =>
    sameAt_persist hapart (Path.isAbove_activeVersion x.path).covers _

/-- **A revision is removed.** -/
theorem Hold.delete_version (hr : h.Hold r) (hx : x.Named) (hother : ∃ m ∈ (h x).revisions, m ≠ n) :
    Hold (Function.update h x ⟨(h x).revisions.filter (· ≠ n), (h x).active⟩)
      (r.delete (Path.version x.path n)) :=
  hr.update hx ((hr x hx).delete_version hother) fun _ hapart =>
    sameAt_delete hapart (Path.isAbove_version x.path n)

/-- **A node is written that no item covers.** -/
theorem Hold.persist_of_not_covers (hr : h.Hold r) {p : Path}
    (hp : ∀ x : VersionedItem, x.Named → ¬ x.path.Covers p) (v : String) : h.Hold (r.persist p v) :=
  fun x hx => (hr x hx).congr fun _ hq =>
    query_persist_of_not_covers r p v fun hqp => hp x hx (hq.trans hqp)

/-- The histories without those of the items at and below a path. -/
def without (h : Histories) (p : Path) : Histories := fun x =>
  if p.Covers x.path then .none else h x

/-- **A node is removed** with the items that it holds. -/
theorem Hold.delete (hr : h.Hold r) {p : Path} (hp : VersionedItem.Uprooting p) :
    (h.without p).Hold (r.delete p) := by
  intro x hx
  obtain ⟨parent, name, hname, rfl⟩ := hp.exists_eq_child
  unfold without
  -- an item goes with the node, or it is apart from it
  split
  · rename_i hcovers
    refine Item.has_none_of_none fun q hq => ?_
    rw [query_delete_child _ _ hname, if_pos (hcovers.trans hq)]
  · rename_i hcovers
    exact (hr x hx).congr
      (sameAt_delete_child hname ((hp.covers_or_apart x hx).resolve_left hcovers))

end Histories

/-! ### Short histories -/

namespace Histories

variable {h : Histories} {r : Repository} {x : VersionedItem} {e : History}

/-- No item has more than two revisions. -/
def Short (h : Histories) : Prop := ∀ x : VersionedItem, x.Named → (h x).revisions.length ≤ 2

theorem Short.update (hshort : h.Short) (he : e.revisions.length ≤ 2) :
    Short (Function.update h x e) := by
  intro y hy
  by_cases heq : y = x
  · subst heq
    rwa [Function.update_self]
  · rw [Function.update_of_ne heq]
    exact hshort y hy

/-- Each item is settled. -/
def Settled (h : Histories) : Prop := ∀ x : VersionedItem, x.Named → ∃ active, h x = .settled active

theorem Settled.short (hsettled : h.Settled) : h.Short := by
  intro x hx
  obtain ⟨active, hactive⟩ := hsettled x hx
  rw [hactive]
  cases active <;> exact Nat.le_of_ble_eq_true rfl

theorem Settled.without (hsettled : h.Settled) (p : Path) : (h.without p).Settled := by
  intro x hx
  unfold Histories.without
  split
  · exact ⟨none, rfl⟩
  · exact hsettled x hx

end Histories

namespace Repository

/-- **A repository is brief**: no item has more than two revisions. -/
def Brief (r : Repository) : Prop := ∃ h : Histories, h.Hold r ∧ h.Short

/-- **A repository is tidy**: each item that is there has one revision, the active one. -/
def Tidy (r : Repository) : Prop := ∃ h : Histories, h.Hold r ∧ h.Settled

theorem Tidy.brief {r : Repository} : r.Tidy → r.Brief := fun ⟨h, hr, hsettled⟩ =>
  ⟨h, hr, hsettled.short⟩

theorem tidy_of_nodes_eq_empty {r : Repository} (h : r.nodes = ∅) : r.Tidy :=
  ⟨_, Histories.hold_of_nodes_eq_empty h, fun _ _ => ⟨none, rfl⟩⟩

end Repository

end ClusterCatalog
