import ClusterCatalog.Proofs.Store.Units
import ClusterCatalog.Proofs.Tree.Reachability

/-!
# Items that nobody disturbs

Where no call is refused, an item is always in order: its revisions are numbered, and its pointer
names one of them (`Item.Orderly`). Writing to such an item goes well as long as there is a number
left for the new revision (`Item.keeps_publish_orderly`), and this is so as long as fewer revisions
were written than there are numbers (`Item.Below`).

Two facts hold of every repository, whatever is refused: with a node there are the nodes above it
(`Repository.Rooted`), and an item that nothing was ever written to is in order.
-/

namespace ClusterCatalog

open Plan Repository

/-! ### Nodes above a node -/

namespace Repository

/-- Whatever is asked and refused, with a node there are the nodes above it. -/
theorem keeps_rooted {α : Type} (p : Access α) {s : Repository} (h : Rooted s) :
    p.Keeps unsure (fun _ s' => Rooted s') s := by
  induction p generalizing s with
  | done a => exact h
  | stop f => exact h
  | ask r k ih =>
    refine Access.keeps_ask_iff.2 ⟨trivial, ih _ ?_, fun e _ => ih _ h⟩
    cases r with
    | persist p v => exact h.persist
    | delete p => exact h.delete
    | query p => exact h
    | children p => exact h
    | warn w => exact h

end Repository

namespace Item

variable {r r' s : Repository} {path : Path} {v : String}

/-- An item that shows something has a node. -/
theorem isSome_query_of_value (hr : Rooted r) (hpath : path ≠ "") (h : value r path = .ok (some v)) :
    (r.query path).isSome := by
  refine hr path (Path.activeVersion path) ?_ hpath (Path.isAbove_activeVersion path)
  rw [value, pointer] at h
  cases hquery : r.query (Path.activeVersion path) with
  | none =>
    rw [hquery] at h
    cases h
  | some text => rfl

/-! ### Items in order -/

/-- **An item is in order**: its revisions are numbered, and its pointer names one of them if it
names any. -/
structure Orderly (r : Repository) (path : Path) : Prop where
  numbered : Numbered r path
  pointed : text r (Path.activeVersion path) = ""
    ∨ ∃ n, text r (Path.activeVersion path) = toString n ∧ Present r path n

/-- All revisions of an item have numbers below a bound. -/
def Below (r : Repository) (path : Path) (bound : Nat) : Prop := ∀ n, Present r path n → n < bound

/-- A bound for the revisions of an item may be raised. -/
theorem Below.mono {bound bound' : Nat} (h : Below r path bound) (hle : bound ≤ bound') :
    Below r path bound' := fun n hn => Nat.lt_of_lt_of_le (h n hn) hle

/-- Whether an item is in order is read off what is at and below it. -/
theorem Orderly.congr (h : Orderly r path) (hsame : SameAt path r r') : Orderly r' path := by
  have hversion : ∀ name, r'.query (Path.child (Path.versions path) name)
      = r.query (Path.child (Path.versions path) name) := fun name =>
    hsame _ ((Path.isAbove_versions path).covers.trans (Path.isAbove_child _ _).covers)
  have htext : text r' (Path.activeVersion path) = text r (Path.activeVersion path) := by
    rw [text, hsame _ (Path.isAbove_activeVersion path).covers, text]
  -- the names of the revisions, and the revision that the pointer leads to, are all below the item
  refine ⟨fun name hname hsome => h.numbered name hname (hversion name ▸ hsome), ?_⟩
  rw [htext]
  refine h.pointed.imp id ?_
  rintro ⟨n, hn, hpresent⟩
  refine ⟨n, hn, ?_⟩
  unfold Present at hpresent ⊢
  rw [hsame _ (Path.isAbove_version path n).covers]
  exact hpresent

/-- A bound is about the nodes of the item only. -/
theorem Below.congr {bound : Nat} (h : Below r path bound) (hsame : SameAt path r r') :
    Below r' path bound := fun n hn => h n <| by
  unfold Present at hn ⊢
  rw [← hsame _ (Path.isAbove_version path n).covers]
  exact hn

/-- An item that nothing is stored of is in order. -/
theorem orderly_of_none (h : ∀ q, path.IsAbove q → r.query q = none) : Orderly r path := by
  refine ⟨fun name _ hsome => ?_, .inl ?_⟩
  · rw [h _ ((Path.isAbove_versions path).covers.isAbove_of_isAbove (Path.isAbove_child _ _))] at hsome
    cases hsome
  · rw [text, h _ (Path.isAbove_activeVersion path)]
    rfl

/-- An item without revisions is below every bound. -/
theorem below_of_none (h : ∀ q, path.IsAbove q → r.query q = none) (bound : Nat) :
    Below r path bound := by
  intro n hn
  rw [Present, h _ (Path.isAbove_version path n)] at hn
  cases hn

/-! ### Writing to an item in order -/

/-- The next number is at most one above the numbers that are there. -/
theorem le_of_nextRevision {found : List Nat} {next bound : Nat} (hlt : ∀ n ∈ found, n < bound)
    (h : nextRevision found = .ok next) : next ≤ bound := by
  unfold nextRevision at h
  split at h
  · cases h
    exact Nat.zero_le _
  · rename_i latest hmax
    split at h
    · cases h
      exact hlt latest (List.max?_eq_some_iff.1 hmax).1
    · cases h

/-- There is no next number only where the greatest number is in use. -/
theorem eq_of_nextRevision_eq_error {found : List Nat} {f : Failure}
    (hle : ∀ n ∈ found, n ≤ maxRevision) (h : nextRevision found = .error f) :
    f = .overflow ∧ maxRevision ∈ found := by
  unfold nextRevision at h
  split at h
  · cases h
  · rename_i latest hmax
    split at h
    · cases h
    · rename_i hlatest
      have hmem := (List.max?_eq_some_iff.1 hmax).1
      obtain rfl : latest = maxRevision := Nat.le_antisymm (hle latest hmem) (Nat.le_of_not_lt hlatest)
      exact ⟨(Except.error.inj h).symm, hmem⟩

/-- **What writing to an item in order leads to**: the item is in order, there is at most one number
more, and only the numbers can have run out. -/
structure Written (path : Path) (s : Repository) {α : Type} (result : Except Failure α)
    (s' : Repository) : Prop where
  orderly : Orderly s' path
  below : ∀ bound, Below s path bound → Below s' path (bound + 1)
  error : ∀ f, result = .error f → f = .overflow ∧ Present s path maxRevision

/-- **Staging** a revision of an item in order. -/
theorem keeps_stage_orderly (h : Orderly s path) (v : String) :
    (stage path v).Keeps sure (Written path s) s := by
  have hsep := separate_eq path
  -- three ways to go: the revisions cannot be listed, there is no number left, or a revision is written
  refine keeps_stage_cases (fun _ he => he.elim) (fun f hf => ?_) (fun found f hfound hfull => ?_)
    fun found next hfound hnext => ?_
  · obtain ⟨found, hfound⟩ := h.numbered.exists_numbers
    rw [hf] at hfound
    cases hfound
  · obtain ⟨rfl, hmax⟩ := eq_of_nextRevision_eq_error
      (fun n hn => h.numbered.le ((h.numbered.mem_iff hfound).1 hn)) hfull
    refine ⟨h, fun bound hbound => hbound.mono (Nat.le_succ _), fun f hf => ?_⟩
    cases hf
    exact ⟨rfl, (h.numbered.mem_iff hfound).1 hmax⟩
  · have hmem : ∀ n, n ∈ found ↔ Present s path n := fun n => h.numbered.mem_iff hfound
    let s₁ := s.persist (Path.version path next) v
    have hnumbered : Numbered s₁ path :=
      h.numbered.persist_version hsep rfl rfl (lt_of_nextRevision hnext).1
    have htext : text s₁ (Path.activeVersion path) = text s (Path.activeVersion path) :=
      text_persist fun heq => Path.version_ne_activeVersion heq.symm
    -- the new revision has the number after the greatest one, so the bound moves by one
    have hbelow : ∀ bound, Below s path bound → Below s₁ path (bound + 1) := by
      intro bound hbound n hn
      rcases present_persist_version.1 hn with rfl | hn
      · exact Nat.lt_succ_of_le (le_of_nextRevision (fun n hn => hbound n ((hmem n).1 hn)) hnext)
      · exact Nat.lt_succ_of_lt (hbound n hn)
    rcases h.pointed with hpointed | ⟨n, hn, hpresent⟩
    · -- the first revision gets its pointer
      rw [pointer_of_text_eq_empty hpointed]
      refine ⟨⟨hnumbered.persist_pointer hsep rfl rfl, .inr ⟨next, text_persist_self _, ?_⟩⟩,
        fun bound hbound n hn => hbelow bound hbound n (present_persist_pointer.1 hn),
        fun _ hf => by cases hf⟩
      exact present_persist_pointer.2 (present_persist_version.2 (.inl rfl))
    · -- an item that has a pointer keeps it
      rw [pointer_of_text_eq hn (h.numbered.le hpresent)]
      exact ⟨⟨hnumbered, .inr ⟨n, htext.trans hn, present_persist_version.2 (.inr hpresent)⟩⟩, hbelow,
        fun _ hf => by cases hf⟩

/-- **Committing** a revision that is there succeeds, and adds none. -/
theorem keeps_commitOne_orderly {switch : PendingSwitch} (h : Orderly s switch.path)
    (hpresent : Present s switch.path switch.next) :
    (commitOne switch).Keeps sure (fun result s' => result = .ok () ∧ Orderly s' switch.path
      ∧ ∀ n, Present s' switch.path n → Present s switch.path n) s := by
  refine keeps_commitOne_cases (fun _ he => he.elim) (fun _ => ⟨rfl, h, fun _ hn => hn⟩)
    fun s' _ hmoved => ⟨rfl, ⟨hmoved.numbered h.numbered, .inr ⟨_, hmoved.pointer, ?_⟩⟩,
      fun n => hmoved.present⟩
  rw [Present, hmoved.query_version le_rfl]
  exact hpresent

/-- **Publishing** a text in an item in order shows it, unless the numbers have run out. -/
theorem keeps_publish_orderly (hpath : path ≠ "") (h : Orderly s path) (v : String) :
    (publish path v).Keeps sure (fun result s' => Written path s result s'
      ∧ ∀ switch, result = .ok switch → Shows s' path v) s := by
  unfold publish
  refine ((keeps_stage_orderly h v).and
    (Access.keeps_of_unsure (keeps_stage hpath v s))).bind (fun switch s₁ h₁ => ?_)
    fun f s₁ h₁ => ⟨⟨h₁.1.orderly, h₁.1.below, fun f' hf' => ?_⟩, fun _ h => by cases h⟩
  · -- what was staged is there, so committing it cannot fail
    obtain ⟨rfl, hstaged⟩ := h₁.2 switch rfl
    have hpresent : Present s₁ switch.path switch.next := by
      rw [Present, hstaged.written]
      rfl
    rw [commit_singleton]
    refine ((keeps_commitOne_orderly h₁.1.orderly hpresent).and
      (Access.keeps_of_unsure (keeps_commitOne_shows hstaged))).bind (fun _ s₂ h₂ => ?_)
      fun f s₂ h₂ => by cases h₂.1.1
    exact ⟨⟨h₂.1.2.1, fun bound hbound n hn => h₁.1.below bound hbound n (h₂.1.2.2 n hn),
      fun _ hf => by cases hf⟩, fun _ _ => h₂.2 rfl⟩
  · cases hf'
    exact h₁.1.error f rfl

/-! ### Loading -/

/-- **An item shows a text or is not there at all.** -/
def ShowsAt (r : Repository) (path : Path) : Option String → Prop
  | some v => Shows r path v
  | none => r.query path = none

/-- What an item shows is read from its own nodes. -/
theorem ShowsAt.congr {text : Option String}
    (h : ShowsAt r path text) (hsame : SameAt path r r') : ShowsAt r' path text := by
  cases text with
  | some v => exact Shows.congr h hsame
  | none => exact (hsame path (.refl _)).trans h

/-- **What an item shows** is read from it. One that is not there has no pointer either. -/
theorem ShowsAt.value_eq {shown : Option String} (h : ShowsAt r path shown) (hrooted : Rooted r)
    (hpath : path ≠ "") : Item.value r path = .ok shown := by
  cases shown with
  | some v => exact Shows.value h
  | none =>
    have hnode : r.query path = none := h
    -- nothing is stored below a node that is not there, so neither is the pointer
    have hpointer : r.query (Path.activeVersion path) = none := by
      by_contra hsome
      have hparent := hrooted _ _ (Option.isSome_iff_ne_none.2 hsome) hpath
        (Path.isAbove_activeVersion path)
      rw [hnode] at hparent
      cases hparent
    have htext : text r (Path.activeVersion path) = "" := by
      rw [text, hpointer]
      rfl
    unfold Item.value
    rw [pointer_of_text_eq_empty htext]
    rfl

end Item

/-- A node lists the keys of a map, in order, if it has children by just these names. -/
theorem Repository.children_eq_keys {α : Type} {r : Repository} {parent : Path} {item : String → Path}
    {m : SortedMap α} (hitem : ∀ name, Path.below parent ++ name = item name)
    (hmem : ∀ name, Path.IsName name ∧ (r.query (item name)).isSome ↔ m.contains name = true) :
    r.children parent = m.keys := by
  rw [children_tree]
  refine eq_of_ascending (r.tree.children_ascending parent) m.keys_ascending fun name => ?_
  rw [← children_tree, mem_children_iff, hitem, SortedMap.mem_keys_iff]
  exact hmem name

/-- The nodes of items that show the texts of a map are those of its names. -/
theorem Item.mem_listing_iff {α : Type} {r : Repository} {item : String → Path} {m : SortedMap α}
    {text : α → String} (hnames : ∀ name, m.contains name = true → Path.IsName name)
    (hshows : ∀ name, Path.IsName name → ShowsAt r (item name) ((m.get? name).map text))
    (name : String) :
    Path.IsName name ∧ (r.query (item name)).isSome ↔ m.contains name = true := by
  constructor
  · -- a name that is not in the map shows nothing, so it has no node
    rintro ⟨hname, hsome⟩
    have hat := hshows name hname
    cases hget : m.get? name with
    | some a => exact SortedMap.contains_iff.2 ⟨a, hget⟩
    | none =>
      rw [hget] at hat
      rw [show r.query (item name) = none from hat] at hsome
      cases hsome
  · intro hcontains
    obtain ⟨a, ha⟩ := SortedMap.contains_iff.1 hcontains
    have hat := hshows name (hnames name hcontains)
    rw [ha] at hat
    exact ⟨hnames name hcontains, hat.node⟩

/-- **A map is loaded** from nodes, if those of its names are loaded with their values, and all others
with nothing. -/
theorem Stored.reads_listing_of_nodes {α : Type} {r : Repository} {parent : Path}
    {item : String → Path} {m : SortedMap α} (hitem : ∀ name, Path.below parent ++ name = item name)
    (hmem : ∀ name, m.contains name = true → Path.IsName name ∧ (r.query (item name)).isSome)
    {load : String → Access (List (String × α))}
    (hload : ∀ name, Path.IsName name → (r.query (item name)).isSome →
      Access.Reads r (load name) (.ok ((m.get? name).map fun a => (name, a)).toList)) :
    Access.Reads r (do
      let names ← Access.children parent
      let found ← names.mapM load
      return SortedMap.ofList found.flatten) (.ok m) := by
  have hnode : ∀ name, name ∈ r.children parent ↔ Path.IsName name ∧ (r.query (item name)).isSome :=
    fun name => by rw [mem_children_iff, hitem]
  -- the nodes that contribute are those of the names of the map
  have hkeys : (r.children parent).filter (fun name => m.contains name) = m.keys := by
    have hascending : (r.children parent).Pairwise (· < ·) := by
      rw [children_tree]
      exact r.tree.children_ascending parent
    refine eq_of_ascending (hascending.filter _) m.keys_ascending fun name => ?_
    rw [List.mem_filter, SortedMap.mem_keys_iff, hnode]
    exact and_iff_right_of_imp (hmem name)
  have hloaded : ∀ name ∈ r.children parent,
      Access.Reads r (load name) (.ok ((m.get? name).map fun a => (name, a)).toList) :=
    fun name hname => hload name ((hnode name).1 hname).1 ((hnode name).1 hname).2
  refine (Access.reads_children parent).bind_ok ?_
  refine (Access.Reads.mapM_of_mem hloaded).bind_ok ?_
  rw [SortedMap.flatten_map_of_filter hkeys, m.ofList_entries]
  exact Access.reads_pure m

/-- **A map is loaded** from the nodes of its names, if each name is loaded with its value. -/
theorem Stored.reads_listing {α : Type} {r : Repository} {parent : Path} {item : String → Path}
    {m : SortedMap α} (hitem : ∀ name, Path.below parent ++ name = item name)
    (hmem : ∀ name, Path.IsName name ∧ (r.query (item name)).isSome ↔ m.contains name = true)
    {load : String → Access (List (String × α))}
    (hload : ∀ name a, m.get? name = some a → Access.Reads r (load name) (.ok [(name, a)])) :
    Access.Reads r (do
      let names ← Access.children parent
      let found ← names.mapM load
      return SortedMap.ofList found.flatten) (.ok m) := by
  refine reads_listing_of_nodes hitem (fun name => (hmem name).2) fun name hname hnode => ?_
  obtain ⟨a, ha⟩ := SortedMap.contains_iff.1 ((hmem name).1 ⟨hname, hnode⟩)
  rw [ha]
  exact hload name a ha

/-- **What is listed below a node is loaded**, if each node of the listing shows the written form of a
value. It does not matter what would happen to one that shows nothing. -/
theorem Stored.reads_listed {α : Type} [Codec α] {r : Repository}
    (hcodec : ∀ a : α, Codec.read? (Codec.write a) = some a)
    {parent : Path} {item : String → Path} {m : SortedMap α}
    (hitem : ∀ name, Path.below parent ++ name = item name)
    (hnames : ∀ name, m.contains name = true → Path.IsName name)
    (hshows : ∀ name, Path.IsName name → Item.ShowsAt r (item name) ((m.get? name).map Codec.write))
    (missing : String → Access (List (String × α))) :
    Access.Reads r (do
      let names ← Access.children parent
      let found ← names.mapM fun name => do
        match ← Item.activeValue (item name) with
        | some text => return [(name, ← Access.parse text)]
        | none => missing name
      return SortedMap.ofList found.flatten) (.ok m) := by
  -- the listing is that of the map; what remains is that each name of it is loaded
  refine reads_listing hitem (Item.mem_listing_iff hnames hshows) fun name a ha => ?_
  have hat := hshows name (hnames name (SortedMap.contains_iff.2 ⟨a, ha⟩))
  rw [ha] at hat
  have hactive : Access.Reads r (Item.activeValue (item name)) (.ok (some (Codec.write a))) :=
    hat.value ▸ Item.reads_activeValue (item name)
  refine hactive.bind_ok ?_
  -- the text is one that was written, so it is read
  have hparse : Access.Reads r (Access.parse (Codec.write a) : Access α) (.ok a) := by
    rw [Access.parse, hcodec]
    exact Access.reads_pure a
  exact hparse.bind_ok (Access.reads_pure _)

end ClusterCatalog
