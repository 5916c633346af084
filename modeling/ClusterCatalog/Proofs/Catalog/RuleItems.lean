import ClusterCatalog.Catalog.Rule
import ClusterCatalog.Proofs.Json.Codec

/-!
# A rule and its items

A rule is taken apart into items (`Rule.items`), each with a text, and put together again from the items
that are found under its name (`Rule.ofItems`). What is put together is the rule that was taken apart,
whatever its items are called and however many there are.

Two things are lost on the way and have to be found again.

* Of each value only the text is kept. That it is read back from its text as an equal one is asked of the
  values of a rule of items (`Rule.ReadsBack`); the tables and the default data source of the
  single-table rule always are.
* Of the kind of the rule nothing is kept but its name: `single` is the name of the single-table rule, and
  a rule of items is any *other* rule. So a rule of items has to have another name
  (`Rule.NameTellsKind`). One that is called `single` can have the very items of a single-table rule
  (`Rule.kinds_alike`), and is never found again.

`Rule.rebuilds_iff` is the result.
-/

namespace ClusterCatalog

/-- Lists are equal if their elements are, one by one. -/
theorem map_beq_map {α β : Type} [BEq β] {f g : α → β} {l : List α}
    (h : ∀ a ∈ l, (f a == g a) = true) : (l.map f == l.map g) = true := by
  induction l with
  | nil => rfl
  | cons a l ih =>
    rw [List.forall_mem_cons] at h
    rw [List.map_cons, List.map_cons, List.cons_beq_cons, h.1, ih h.2]
    rfl

/-! ### Rules of items -/

namespace Rule

/-- A rule is put together from the texts of its items. -/
theorem ofItems_map {rule : String} (hrule : rule ≠ SingleRule.ruleName) {items : SortedMap Value}
    (h : ∀ e ∈ items.entries, Codec.ReadsBack e.2) :
    Rule.ofItems rule (items.map fun _ v => Codec.write v)
      = .ok (.named ⟨rule, items.map fun _ v => Codec.readBack v⟩) := by
  -- the items are read one by one
  have hread : ∀ l : List (String × Value), (∀ e ∈ l, Codec.ReadsBack e.2) →
      ((l.map fun e => (e.1, Codec.write e.2)).mapM fun e => do
        return (e.1, ← (Codec.read? e.2).elim (Except.error (Error.malformedItem rule e.1)) .ok))
        = .ok (l.map fun e => (e.1, Codec.readBack e.2)) := by
    intro l
    induction l with
    | nil => exact fun _ => rfl
    | cons e l ih =>
      intro hl
      rw [List.forall_mem_cons] at hl
      rw [List.map_cons, List.mapM_cons, ih hl.2, hl.1.read?.1]
      rfl
  have hvalues := hread items.entries h
  unfold Rule.ofItems
  rw [if_neg hrule]
  show ((_ : Except Error _) >>= fun values => pure (Rule.named ⟨rule, SortedMap.ofList values⟩)) = _
  refine (congrArg (· >>= _) hvalues).trans ?_
  exact congrArg (fun m => Except.ok (Rule.named ⟨rule, m⟩))
    (SortedMap.ofList_entries (items.map fun (_ : String) (v : Value) => Codec.readBack v))

/-- What is read back of the values of a rule makes up an equal rule. -/
theorem named_readBack_beq {rule : String} {items : SortedMap Value}
    (h : ∀ e ∈ items.entries, Codec.ReadsBack e.2) :
    (Rule.named ⟨rule, items.map fun _ v => Codec.readBack v⟩ == .named ⟨rule, items⟩) = true := by
  have hentry : ∀ e ∈ items.entries, ((e.1, Codec.readBack e.2) == id e) = true := fun e he => by
    show (e.1 == e.1 && Codec.readBack e.2 == e.2) = true
    rw [(h e he).read?.2, beq_self_eq_true, Bool.and_true]
  have hentries := map_beq_map hentry
  rw [List.map_id] at hentries
  show (rule == rule && (items.map fun _ v => Codec.readBack v).entries == items.entries) = true
  rw [beq_self_eq_true, Bool.true_and]
  exact hentries

/-- The items of a rule of items are its values, each as its text. -/
theorem ofList_items_named (x : NamedRule) :
    SortedMap.ofList (named x).items = x.items.map fun _ v => Codec.write v :=
  SortedMap.ofList_entries (x.items.map fun _ v => Codec.write v)

/-! ### The single-table rule -/

/-- **Under the name of the single-table rule** the items are taken for its tables and its default data
source. -/
theorem ofItems_ruleName (items : SortedMap String) :
    ofItems SingleRule.ruleName items = (do
      let tables ← (items.get? tablesItem).elim (pure []) fun text =>
        (Codec.read? text).elim (.error .malformedText) .ok
      let unit ← (items.get? defaultDataSourceItem).mapM fun text =>
        (Codec.read? text).elim (.error .malformedText) .ok
      return .single ⟨tables, unit⟩) := rfl

/-- So whatever items there are, no rule of items is put together from them. -/
theorem exists_eq_single_of_ofItems {items : SortedMap String} {c : Rule}
    (h : ofItems SingleRule.ruleName items = .ok c) : ∃ x, c = .single x := by
  rw [ofItems_ruleName] at h
  generalize (Option.elim _ _ _ : Except Error (List String)) = tables at h
  generalize (Option.mapM _ _ : Except Error (Option String)) = unit at h
  cases tables with
  | error e => cases h
  | ok tables =>
    cases unit with
    | error e => cases h
    | ok unit => exact ⟨⟨tables, unit⟩, (Except.ok.inj h).symm⟩

end Rule

namespace SingleRule

/-- The items of a configuration with their texts. -/
def texts (c : SingleRule) : SortedMap String := .ofList (Rule.single c).items

theorem tablesItem_ne : Rule.tablesItem ≠ Rule.defaultDataSourceItem := by decide

/-- The texts of a single-table rule are its tables, and its default unit if there is one. -/
theorem get?_texts (c : SingleRule) (item : String) :
    c.texts.get? item = if item = Rule.tablesItem then some (Codec.write c.tables)
      else if item = Rule.defaultDataSourceItem then c.defaultDataSource.map Codec.write
      else none := by
  obtain ⟨tables, unit⟩ := c
  -- the second text is there only if a default unit is
  cases unit with
  | none =>
    show (SortedMap.empty.insert _ _).get? item = _
    rw [SortedMap.get?_insert, SortedMap.get?_empty]
    simp
  | some unit =>
    show ((SortedMap.empty.insert _ _).insert _ _).get? item = _
    rw [SortedMap.get?_insert, SortedMap.get?_insert, SortedMap.get?_empty]
    by_cases hitem : item = Rule.tablesItem <;> simp [hitem, tablesItem_ne]

/-- The text of a default data source can be read. -/
theorem read?_write_unit (unit : String) : Codec.read? (Codec.write unit) = some unit :=
  Codec.read?_write Decoder.inverts_text (by decide) unit

/-- **A configuration is put together** from its items. -/
theorem ofItems_texts (x : SingleRule) : Rule.ofItems ruleName x.texts = .ok (.single x) := by
  have htables : Codec.read? (Codec.write x.tables) = some x.tables :=
    Codec.read?_write Decoder.inverts_text.list (by decide) x.tables
  rw [Rule.ofItems_ruleName, get?_texts, if_pos rfl, get?_texts, if_neg tablesItem_ne.symm, if_pos rfl]
  obtain ⟨tables, unit⟩ := x
  cases unit with
  | none => simp [htables]
  | some unit => simp [htables, read?_write_unit]; rfl

end SingleRule

/-! ### Rules of both kinds -/

namespace Rule

/-- **The values of a rule are read back** from their texts. -/
def ReadsBack : Rule → Prop
  | single _ => True
  | named x => ∀ e ∈ x.items.entries, Codec.ReadsBack e.2

instance : DecidablePred ReadsBack
  | single _ => inferInstanceAs (Decidable True)
  | named x => inferInstanceAs (Decidable (∀ e ∈ x.items.entries, Codec.ReadsBack e.2))

/-- **The name of a rule tells its kind**: a rule of items is not called as the single-table rule. -/
def NameTellsKind : Rule → Prop
  | single _ => True
  | named x => x.name ≠ SingleRule.ruleName

/-- **A rule is rebuilt** from its items as an equal one. -/
def Rebuilds (c : Rule) : Prop :=
  ∃ c', ofItems c.name (.ofList c.items) = .ok c' ∧ (c' == c) = true

/-- **Taking a rule apart and putting it together again is the identity**, just for those rules whose name
tells their kind. -/
theorem rebuilds_iff (c : Rule) (h : c.ReadsBack) : c.Rebuilds ↔ c.NameTellsKind := by
  cases c with
  | single x =>
    -- all that such a rule has is in its two items, and there is no name that could be mistaken
    refine iff_of_true ⟨.single x, SingleRule.ofItems_texts x, ?_⟩ trivial
    show (x == x) = true
    exact beq_self_eq_true x
  | named x =>
    constructor
    · -- a rule of items is not equal to a single-table rule
      rintro ⟨c', hc', heq⟩ hname
      obtain ⟨y, rfl⟩ : ∃ y, c' = .single y := by
        apply exists_eq_single_of_ofItems
        rw [← hname]
        exact hc'
      cases heq
    · intro hname
      refine ⟨.named ⟨x.name, x.items.map fun _ v => Codec.readBack v⟩, ?_, named_readBack_beq h⟩
      rw [ofList_items_named]
      exact ofItems_map hname h

/-- A rule of items has items that are called like those of the single-table rule, one without a name and
one with a slash in it, and is rebuilt. -/
theorem rebuilds_odd_items :
    let c : Rule := .named ⟨"sharding", .ofList [("", .null), ("tables", .array [.integer (-1), .bool true]),
      ("a/b", .object [("é", .text "\"")])]⟩
    c.ReadsBack ∧ c.Rebuilds := by
  intro c
  have h : c.ReadsBack := by decide +kernel
  have hname : c.NameTellsKind := show "sharding" ≠ "single" by decide
  exact ⟨h, (rebuilds_iff c h).2 hname⟩

/-- **A rule of items and a single-table rule can be stored alike**, with the same items under the same
name. It is the single-table rule that is rebuilt from them. -/
theorem kinds_alike :
    let c : Rule := .named ⟨"single", .ofList [("tables", .array [])]⟩
    let d : Rule := .single ⟨[], none⟩
    c.ReadsBack ∧ c.name = d.name ∧ c.items = d.items ∧ d.Rebuilds ∧ ¬ c.Rebuilds := by
  intro c d
  have hread : c.ReadsBack := by decide +kernel
  have hd : ofItems d.name (.ofList d.items) = .ok d := SingleRule.ofItems_texts ⟨[], none⟩
  have hitems : c.items = d.items := by decide +kernel
  refine ⟨hread, rfl, hitems, ⟨d, hd, rfl⟩, ?_⟩
  rintro ⟨c', hc', heq⟩
  -- the items are those of `d`, so it is `d` that is put together from them
  rw [hitems] at hc'
  obtain rfl : d = c' := Except.ok.inj (hd.symm.trans hc')
  cases heq

end Rule

end ClusterCatalog
