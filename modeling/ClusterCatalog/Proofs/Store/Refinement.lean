import Mathlib.Data.List.Flatten
import ClusterCatalog.Proofs.Store.Access
import ClusterCatalog.Store.Item

/-!
# Operations that refine changes

A repository stands for something abstract: a catalogue, a table of rules. An operation on the
repository **refines** a change of it if, where the repository stands for a state, the operation ends
well and the repository stands for the changed state (`Access.Refines`). What the relation is, and what
is written to, are parameters.

Revisions have numbers, and there are only so many. So an operation comes with the paths of the items
that it writes to, each as often as it is written to, and it is asked for only as long as no item is
written to more often than there are numbers. Sequences and loops write to what their parts write to.
-/

namespace ClusterCatalog

namespace Access

open Plan Repository

variable {α σ : Type} {Stands : Repository → List Path → σ → Prop} {p q : Access Unit}
  {paths paths' : List Path} {f g : σ → σ}

/-- **An operation refines a change**, where `Stands r written a` says that a repository stands for a
state after the items at the listed paths were written to, once for each time they are listed. -/
def Refines (Stands : Repository → List Path → σ → Prop) (p : Access Unit) (paths : List Path)
    (f : σ → σ) : Prop :=
  ∀ r written a, Stands r written a → (∀ path, (written ++ paths).count path ≤ maxRevision) →
    p.Keeps sure (fun result s' => result = .ok () ∧ Stands s' (written ++ paths) (f a)) r

/-- One operation after the other refines one change after the other. -/
theorem Refines.seq (hp : Refines Stands p paths f) (hq : Refines Stands q paths' g) :
    Refines Stands (p >>= fun _ => q) (paths ++ paths') fun a => g (f a) := by
  intro r written a hr hcount
  -- the writes of both operations together must fit, so those of the first one do
  rw [← List.append_assoc] at hcount ⊢
  have hpart : (written ++ paths).Sublist (written ++ paths ++ paths') := List.sublist_append_left _ _
  refine (hp r written a hr fun path => Nat.le_trans (hpart.count_le path) (hcount path)).bind
    (fun _ s' hs' => ?_) fun f s' hs' => by cases hs'.1
  exact hq s' _ _ hs'.2 hcount

/-- Doing nothing refines changing nothing. -/
theorem refines_pure : Refines Stands (pure ()) [] id := fun r written a hr _ =>
  ⟨rfl, by rw [List.append_nil]; exact hr⟩

/-- A loop refines the changes of its rounds. -/
theorem Refines.forM {p : α → Access Unit} {paths : α → List Path} {f : α → σ → σ} {l : List α}
    (h : ∀ a ∈ l, Refines Stands (p a) (paths a) (f a)) :
    Refines Stands (l.forM p) (l.flatMap paths) fun x => l.foldl (fun x a => f a x) x := by
  -- by induction on the rounds; the paths of the rounds are put after each other as the rounds are
  induction l with
  | nil => exact refines_pure
  | cons a l ih =>
    exact (h a List.mem_cons_self).seq (ih fun b hb => h b (List.mem_cons_of_mem _ hb))

/-- A loop that writes to no item. -/
theorem Refines.forM_nil {p : α → Access Unit} {f : α → σ → σ} {l : List α}
    (h : ∀ a ∈ l, Refines Stands (p a) [] (f a)) :
    Refines Stands (l.forM p) [] fun x => l.foldl (fun x a => f a x) x := by
  have hloop := Refines.forM h
  rwa [show (l.flatMap fun _ => ([] : List Path)) = [] by simp] at hloop

/-- **A prefix of a run** writes to no item more often than there are numbers, if the whole run does
not. -/
theorem count_le_of_prefix {paths : α → List Path} {done ops : List α} (h : done <+: ops)
    (hcount : ∀ path, (ops.flatMap paths).count path < maxRevision + 1) (path : Path) :
    ([] ++ done.flatMap paths).count path ≤ maxRevision := by
  have hle := (h.sublist.flatMap paths).count_le path
  exact Nat.le_of_lt_succ (Nat.lt_of_le_of_lt hle (hcount path))

end Access

end ClusterCatalog
