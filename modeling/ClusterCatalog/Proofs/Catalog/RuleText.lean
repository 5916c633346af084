import ClusterCatalog.Proofs.Catalog.RuleItems
import ClusterCatalog.Proofs.Catalog.StoredForm
import ClusterCatalog.Proofs.Json.Nesting

/-!
# A rule as one text

A global rule is kept as one text, and the values of its items are part of it. They stand three levels
down, in the object of the kind, in that of the rule and in that of the items. A text may be nested 127
deep. So a value that is nested deeper than 124 levels can be read back from its own text, as the item of
a database rule is, and yet no text of a rule that contains it can be read.

`Rule.readsBack_of_shallow` and `Rule.read?_write_of_not_shallow` are the two halves: where each value is
read back by itself, the rule is read back exactly if none of them is nested too deep (`Rule.Shallow`).
The configuration of the single-table rule always is.
-/

namespace ClusterCatalog

open Document Decoder

namespace Rule

/-- How deep the values of a rule may be nested in its text, where they stand three levels down: 124. -/
def maxDepth : Nat := maxLevels - 3

/-- **A rule is shallow**: none of its values is nested too deep for the text of the rule. -/
def Shallow : Rule → Prop
  | single _ => True
  | named x => ∀ e ∈ x.items.entries, e.2.depth ≤ maxDepth

instance : DecidablePred Shallow
  | single _ => inferInstanceAs (Decidable True)
  | named x => inferInstanceAs (Decidable (∀ e ∈ x.items.entries, e.2.depth ≤ maxDepth))

/-- **The configuration of the single-table rule is read back.** -/
theorem readsBack_single (x : SingleRule) : Codec.ReadsBack (Rule.single x) := by
  have hplain : (Codec.encode (Rule.single x)).Plain :=
    Document.plain_ofMembers fun m hm => by
      rw [List.mem_singleton.1 hm]
      exact (Codec.inverts_singleRule x).1
  -- the two levels of its document are far below the depth limit, so the reader has budget left
  have hread : Codec.read? (Codec.write (Rule.single x)) = some (Rule.single x) := by
    rw [Codec.read?, Codec.write, Document.read_toText hplain.legible]
    show Rule.single <$> Codec.decode 126 (Codec.encode x) = some (Rule.single x)
    rw [Codec.inverts_singleRule.finds x 126 (by decide)]
    rfl
  have hself : (Rule.single x == Rule.single x) = true := beq_self_eq_true x
  unfold Codec.ReadsBack
  rw [hread]
  exact hself

/-- A rule of items is written legibly, whatever its values are. -/
theorem legible_encode_named (x : NamedRule) : (Codec.encode (named x)).Legible := by
  have hitems : (Codec.encodeMap x.items).Legible := legible_ofMembers fun m hm => by
    obtain ⟨e, -, rfl⟩ := List.mem_map.1 hm
    exact e.2.legible_toDocument
  have hname : (ofString x.name).Legible := rfl
  have hrule : (Codec.encode x).Legible := legible_ofMembers (by simpa using ⟨hname, hitems⟩)
  exact legible_ofMembers (by simpa using hrule)

/-- Reading the text of a rule of items comes to reading its items, three levels down. -/
theorem read?_write_named (x : NamedRule) : Codec.read? (Codec.write (named x))
    = (Decoder.map Decoder.value (maxDepth + 1) (Codec.encodeMap x.items)).map fun items =>
      named ⟨x.name, items⟩ := by
  have hnodup : ["name", "items"].Nodup := by decide
  let members := [("name", ofString x.name), ("items", Codec.encodeMap x.items)]
  have hnames : members.map (·.1) = ["name", "items"] := rfl
  have hfields : Fields.ofDocument ["name", "items"] (maxDepth + 1 + 1) (ofMembers members)
      = some ⟨false, maxDepth + 1, members⟩ := Fields.ofDocument_ofMembers hnames hnodup _
  rw [Codec.read?, Codec.write, read_toText (legible_encode_named x)]
  show named <$> (Fields.ofDocument ["name", "items"] (maxDepth + 1 + 1) (ofMembers members) >>= _) = _
  rw [hfields]
  show named <$> (Decoder.map Decoder.value (maxDepth + 1) (Codec.encodeMap x.items)).bind _ = _
  cases Decoder.map Decoder.value (maxDepth + 1) (Codec.encodeMap x.items) <;> rfl

/-- **A shallow rule is read back** if each of its values is read back by itself. -/
theorem readsBack_of_shallow {c : Rule} (h : c.ReadsBack) (hshallow : c.Shallow) :
    Codec.ReadsBack c := by
  cases c with
  | single x => exact readsBack_single x
  | named x =>
    have hfinds : (Decoder.map Decoder.value).Finds (maxDepth + 1) (Codec.encodeMap x.items)
        (x.items.map fun _ => Codec.readBack) :=
      Finds.mapValues fun e he => (Value.finds_readBack (h e he)).mono (hshallow e he)
    unfold Codec.ReadsBack
    rw [read?_write_named, hfinds _ (Nat.le_refl _)]
    exact named_readBack_beq h

/-- **A rule that is not shallow is not read back**: there is no value in its text. -/
theorem read?_write_of_not_shallow {c : Rule} (h : ¬ c.Shallow) :
    (Codec.read? (Codec.write c) : Option Rule) = none := by
  cases c with
  | single x => exact absurd trivial h
  | named x =>
    obtain ⟨e, he, hdeep⟩ : ∃ e ∈ x.items.entries, maxDepth < e.2.depth := by
      simpa [Shallow] using h
    rw [read?_write_named, Option.map_eq_none_iff]
    by_contra hsome
    obtain ⟨m, hm⟩ := Option.ne_none_iff_exists'.1 hsome
    -- each member would be read, the deep one included
    have hmember : (some e.1, e.2.toDocument)
        ∈ (x.items.entries.map fun e => (e.1, Codec.encode e.2)).map fun m => (some m.1, m.2) :=
      List.mem_map_of_mem (List.mem_map_of_mem he)
    obtain ⟨v, hv⟩ := exists_of_mem_of_map_eq_some hm hmember
    rw [Value.eq_none_of_lt_depth hdeep] at hv
    cases hv

end Rule

end ClusterCatalog
