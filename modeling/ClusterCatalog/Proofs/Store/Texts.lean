import ClusterCatalog.Proofs.Store.Units

/-!
# The texts of an item

Whatever is refused while an item is replaced, and wherever this ends: can something be read from the
item that was never written to it? The pointer is only ever set to numbers, and revisions have the
texts that were written. So if all these texts are of a kind, what the item shows is of this kind or
nothing (`Item.Bears.value`). It may be that the pointer names a revision that is not there.

* `Item.Bears` — the pointer and the revisions of an item are as they should be.
* `Item.Suits` — a call writes to the item what it may bear, or has nothing to do with it.
* `Item.uses_suits_replace` — replacing items makes such calls only, so that
  `Item.Bears.keeps_replace` follows call by call.
-/

namespace ClusterCatalog

open Plan Repository

namespace Item

variable {kind : String → Prop} {r r' : Repository} {path : Path}

/-- **An item bears texts of a kind**: its pointer names a number, if any, and its revisions have
such texts. -/
structure Bears (kind : String → Prop) (r : Repository) (path : Path) : Prop where
  pointer : ∃ found, pointer r path = .ok found
  revisions : ∀ n v, r.query (Path.version path n) = some v → kind v

/-- **What is read from an item** is a text that it bears, or nothing. -/
theorem Bears.value (h : Bears kind r path) :
    ∃ found, value r path = .ok found ∧ ∀ v, found = some v → kind v := by
  obtain ⟨found, hpointer⟩ := h.pointer
  refine ⟨found.bind fun n => r.query (Path.version path n), ?_, fun v hv => ?_⟩
  · rw [Item.value, hpointer]
    rfl
  · obtain ⟨n, -, hn⟩ := Option.bind_eq_some_iff.1 hv
    exact h.revisions n v hn

theorem bears_of_none (h : ∀ q, path.IsAbove q → r.query q = none) : Bears kind r path where
  pointer := ⟨none, pointer_of_text_eq_empty (by
    rw [text, h _ (Path.isAbove_activeVersion path)]
    rfl)⟩
  revisions n v hv := by
    rw [h _ (Path.isAbove_version path n)] at hv
    cases hv

theorem Bears.mono {kind' : String → Prop} (h : Bears kind r path) (hkind : ∀ v, kind v → kind' v) :
    Bears kind' r path :=
  ⟨h.pointer, fun n v hv => hkind v (h.revisions n v hv)⟩

theorem Bears.congr (h : Bears kind r path) (hsame : SameAt path r r') : Bears kind r' path where
  pointer := by
    rw [pointer_congr hsame]
    exact h.pointer
  revisions n v hv := by
    rw [hsame _ (Path.isAbove_version path n).covers] at hv
    exact h.revisions n v hv

/-! ### Calls -/

/-- **A call suits an item**: it sets the pointer to a number, writes a revision with a text of the
kind, removes a revision, only reads, or is about something apart. -/
def Suits (kind : String → Prop) (path : Path) (call : StoreRequest) : Prop :=
  (∃ a, a.Apart path ∧ call.Concerns a) ∨ match call with
    | .persist x v => (x = Path.activeVersion path ∧ ∃ n, n ≤ maxRevision ∧ v = toString n)
        ∨ kind v ∧ ∃ n, x = Path.version path n
    | .delete x => ∃ n, x = Path.version path n
    | _ => True

/-- **A call that suits an item** leaves it with texts of the kind. -/
theorem Bears.answer (h : Bears kind r path) {call : StoreRequest} (hcall : Suits kind path call) :
    Bears kind (answer call r).2 path := by
  rcases hcall with ⟨a, hapart, hconcerns⟩ | hcall
  · exact h.congr (sameAt_answer_of_apart hapart hconcerns)
  -- the pointer is read off its text, so it is enough that this stays or is a number
  have hpointer : ∀ {r' : Repository},
      text r' (Path.activeVersion path) = text r (Path.activeVersion path) →
      ∃ found, Item.pointer r' path = .ok found := fun htext => by
    rw [pointer_eq, htext, ← pointer_eq]
    exact h.pointer
  cases call with
  | persist x v =>
    rcases hcall with ⟨rfl, n, hn, rfl⟩ | ⟨hkind, n, rfl⟩
    · refine ⟨⟨some n, pointer_of_text_eq (text_persist_self _) hn⟩, fun m w hw => ?_⟩
      change (r.persist _ _).query _ = _ at hw
      rw [r.query_persist_of_not_covers _ _ Path.not_version_covers_activeVersion] at hw
      exact h.revisions m w hw
    · refine ⟨hpointer (text_persist Path.version_ne_activeVersion.symm), fun m w hw => ?_⟩
      change (r.persist _ _).query _ = _ at hw
      by_cases hm : m = n
      · subst hm
        rw [query_persist_self] at hw
        exact Option.some.inj hw ▸ hkind
      · rw [r.query_persist_of_not_covers _ _ fun hc => hm (Path.covers_version_iff.1 hc)] at hw
        exact h.revisions m w hw
  | delete x =>
    obtain ⟨n, rfl⟩ := hcall
    refine ⟨hpointer (text_delete_version_activeVersion path n), fun m w hw => ?_⟩
    change (r.delete _).query _ = _ at hw
    rw [query_delete_version] at hw
    split at hw
    · cases hw
    · exact h.revisions m w hw
  | query x => exact h
  | children x => exact h
  | warn w => exact h

/-- **Calls that suit an item** leave it with texts of the kind, whichever of them are refused. -/
theorem Bears.keeps {α : Type} {p : Access α} (h : Bears kind r path) (hp : p.Uses (Suits kind path)) :
    p.Keeps unsure (fun _ r' => Bears kind r' path) r := by
  refine (Keeps.of_any (R := fun s s' => Bears kind s path → Bears kind s' path) (uses_iff.1 hp)
    (fun _ hs => hs) (fun _ _ _ h₁ h₂ hs => h₂ (h₁ hs)) (fun call s hcall => ⟨trivial, ?_⟩) r).mono
    fun _ _ hr => hr.1 h
  rintro reply s' ⟨refusal, -, hanswer⟩ hs
  obtain ⟨-, rfl⟩ := Prod.mk.inj hanswer.symm
  cases refusal with
  | none => exact hs.answer hcall
  | some e => exact hs

/-! ### Replacing items -/

variable {q : Path} {v : String}

/-- Looking at an item suits it. -/
theorem Look.suits {call : StoreRequest} (h : Look q call) : Suits kind path call := by
  cases h <;> exact .inr trivial

/-- A switch that can be committed: it is one of the item, to a number in range, or of an item
apart. -/
def Fits (path : Path) (switch : PendingSwitch) : Prop :=
  switch.path.Apart path ∨ switch.path = path ∧ switch.next ≤ maxRevision

/-- **Writing a revision** of the item or of another one suits the item. -/
theorem keeps_suits_stage (h : q.Apart path ∨ q = path ∧ kind v) :
    (stage q v).Keeps (.any (Suits kind path))
      (fun result _ => ∀ switch, result = .ok switch → Fits path switch) () := by
  rcases h with hapart | ⟨rfl, hkind⟩
  · -- another item is written without asking for anything of this one
    have hstage : (stage q v).Keeps (.any (Suits kind path))
        (fun result _ => ∀ switch, result = .ok switch → switch.path = q) () :=
      (keeps_stage_path q v).of_terms
        (fun _ _ (hcall : StoreRequest.Concerns q _) => Or.inl ⟨q, hapart, hcall⟩)
        fun _ _ _ _ h => h
    exact hstage.mono fun _ _ hpath switch hswitch => .inl (hpath switch hswitch ▸ hapart)
  -- the first revision is pointed at, which suits the item as its number is in range
  refine (keeps_stage_of (fun _ => Look.suits) (fun n _ => .inr (.inr ⟨hkind, n, rfl⟩))
    fun n hn => .inr (.inl ⟨rfl, n, hn, rfl⟩)).mono fun _ _ h switch hswitch => ?_
  exact .inr (h switch hswitch)

/-- **Committing a switch** of the item or of another one suits the item. -/
theorem uses_suits_commitOne {switch : PendingSwitch} (h : Fits path switch) :
    (commitOne switch).Uses (Suits kind path) := by
  rcases h with hapart | ⟨rfl, hle⟩
  · -- a switch of another item touches nothing of this one
    exact (uses_commitOne switch).mono fun call hcall => .inl ⟨_, hapart, hcall⟩
  -- the pointer gets a number in range, and after that revisions are only removed
  exact uses_commitOne_of (fun _ => Look.suits) (.inr (.inl ⟨rfl, switch.next, hle, rfl⟩))
    fun n => .inr ⟨n, rfl⟩

/-- **Replacing items** suits an item that bears what is written to it. -/
theorem uses_suits_replace {items : List (Path × String)}
    (h : ∀ e ∈ items, e.1.Apart path ∨ e.1 = path ∧ kind e.2) :
    ((items.mapM fun e => stage e.1 e.2) >>= commit).Uses (Suits kind path) := by
  refine Uses.bind_of_keeps (P := fun switches => ∀ switch ∈ switches, Fits path switch) ?_
    fun switches hswitches => Uses.forM fun switch hswitch =>
      uses_suits_commitOne (hswitches switch hswitch)
  exact Keeps.mapM_any fun e he => keeps_suits_stage (h e he)

/-- **An item bears what was written to it before and what is written now**, wherever the replacement
of items ends. -/
theorem Bears.keeps_replace {items : List (Path × String)} (hr : Bears kind r path)
    (h : ∀ e ∈ items, e.1.Apart path ∨ e.1 = path) :
    ((items.mapM fun e => stage e.1 e.2) >>= commit).Keeps unsure
      (fun _ r' => Bears (fun v => kind v ∨ (path, v) ∈ items) r' path) r := by
  refine (hr.mono fun _ => .inl).keeps (uses_suits_replace fun e he => ?_)
  refine (h e he).imp_right fun heq => ⟨heq, .inr ?_⟩
  rwa [← heq]

end Item

end ClusterCatalog
