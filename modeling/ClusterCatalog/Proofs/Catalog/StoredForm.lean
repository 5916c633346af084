import ClusterCatalog.Catalog.Properties
import ClusterCatalog.Catalog.Rule
import ClusterCatalog.Catalog.Settings
import ClusterCatalog.Catalog.Statistics
import ClusterCatalog.Proofs.Json.Recovery
import Mathlib

/-!
# Stored metadata is faithful and stable

Every kind of metadata is kept as text. A text may come from elsewhere: with fields left out that
have defaults, with unknown fields, with records as arrays, with keys repeated, with any escapes and
any blanks. Whatever text is accepted as a value, the text that is written for the value is accepted
as the same value, and so is written again letter by letter (`Metadata.rewrites_faithfully`).

The kinds differ in what they hold. Most have a fixed shape: their values are read back from what is
written for them, whatever they were read from (`Decoder.Inverts`). The settings hold numbers, which
are bounded only by what a decoder accepts. Rules and statistics hold free-form values, whose numbers
are to be integers (`Metadata.freeForm`), and these are recovered at any depth
(`Decoder.Recovers`).
-/

namespace ClusterCatalog

open Document Decoder

/-! ### Free-form parts -/

/-- The free-form parts of a named rule: the values of its items. -/
def NamedRule.freeForm : Parts := Parts.itself.ofMembers.ofField ["name", "items"] "items"

/-- The free-form parts of a rule. -/
def Rule.freeForm : Parts
  | .object [(some "Named", doc)] => NamedRule.freeForm doc
  | _ => []

/-- The free-form parts of the statistics of a table: the cells of its rows. -/
def TableStatistics.freeForm : Parts := Parts.itself.ofItems.ofItems.ofField ["name", "rows"] "rows"

/-- The free-form parts of the statistics of a schema: those of its tables. -/
def SchemaStatistics.freeForm : Parts :=
  TableStatistics.freeForm.ofMembers.ofField ["tables"] "tables"

/-- The free-form parts of the statistics of a database: those of its schemas. -/
def DatabaseStatistics.freeForm : Parts :=
  SchemaStatistics.freeForm.ofMembers.ofField ["schemas"] "schemas"

/-! ### Fixed shapes -/

namespace Codec

/-- A node is a text and nothing else. -/
theorem inverts_storageNode : Inverts (decode : Decoder StorageNode) encode 0 := fun n =>
  ⟨(inverts_text n.name).1, fun _ _ => rfl⟩

/-- Properties are a map of texts. -/
theorem inverts_properties : Inverts (decode : Decoder Properties) encode 1 := inverts_text.map

/-- A text or its absence is read back. -/
theorem inverts_text? : (nullable text).Inverts ofString? 0 := by
  rintro (_ | s)
  · exact ⟨trivial, fun _ _ => rfl⟩
  · exact ⟨(inverts_text s).1, fun _ _ => rfl⟩

/-- The rule of undistributed tables is read back; it may be without a default data source. -/
theorem inverts_singleRule : Inverts (decode : Decoder SingleRule) encode 2 := by
  have htables := inverts_text.list
  refine inverts_record (fun _ => rfl) (by decide) ?_ fun r n hn => ?_
  · simpa [ofStrings] using fun r : SingleRule =>
      ⟨(htables r.tables).1, (inverts_text? r.defaultDataSource).1⟩
  · show (Decoder.list text n (ofStrings r.tables)).bind (fun tables =>
      (nullable text n (ofString? r.defaultDataSource)).bind fun unit => some ⟨tables, unit⟩) = some r
    rw [ofStrings, htables.finds r.tables n hn, inverts_text?.finds _ n (Nat.zero_le n)]
    rfl

/-- A schema is read back, with its tables and views. -/
theorem inverts_schema : Inverts (decode : Decoder Schema) encode 6 := by
  -- tables nest deeper than views, so they say how many levels a schema needs
  have htables := inverts_table.map
  have hviews := inverts_view.map.mono (by decide : 2 ≤ 5)
  refine inverts_record (fun _ => rfl) (by decide) ?_ fun s n hn => ?_
  · simpa [ofString, Plain] using fun s : Schema => ⟨(htables s.tables).1, (hviews s.views).1⟩
  · show (Decoder.map decode n (encodeMap s.tables)).bind (fun tables =>
      (Decoder.map decode n (encodeMap s.views)).bind fun views => some ⟨s.name, tables, views⟩)
        = some s
    rw [encodeMap, htables.finds s.tables n hn, encodeMap, hviews.finds s.views n hn]
    rfl

/-! ### Settings -/

/-- A flag is taken back. -/
theorem inverts_flag : flag.Inverts Document.bool 0 := fun _ => ⟨trivial, fun _ _ => rfl⟩

/-- A kind of repository is written by its name, and no two have the same. -/
theorem inverts_backend : Inverts (decode : Decoder Backend) encode 0 := by
  intro b
  refine ⟨(inverts_text b.name).1, fun n _ => ?_⟩
  cases b <;> rfl

/-- A number within the limit is read back. -/
theorem restores_natural {limit a : Nat} (hle : a ≤ limit) :
    (natural limit).Restores 0 (ofNat a) a :=
  ⟨Numeral.inDigits_of_isWhole rfl, fun _ _ => if_pos ⟨rfl, Bool.false_ne_true, hle⟩⟩

/-- A number that was accepted is within the limit. -/
theorem recovers_word : word.Recovers ofNat 0 .nowhere := by
  intro levels doc a h _
  -- a number that was accepted fits into 64 bits, so it is written in full
  have hle : a ≤ 18446744073709551615 := by
    cases doc with
    | number n =>
      simp only [word, natural] at h
      split at h
      · rename_i hn
        exact Option.some.inj h ▸ hn.2.2
      · cases h
    | _ => cases h
  exact (restores_natural hle).mono (Nat.zero_le _)

/-- Whatever settings of a repository are read, they are read again from what is written of them. -/
theorem recovers_repositorySettings :
    Recovers (decode : Decoder RepositorySettings) encode 1 .nowhere := by
  refine Recovers.record (fun _ => rfl) (by decide) fun _ _ hbuild => ?_
  obtain ⟨backend, hbackend, hbuild⟩ := Option.bind_eq_some_iff.1 hbuild
  obtain ⟨path, hpath, hbuild⟩ := Option.bind_eq_some_iff.1 hbuild
  obtain rfl := Option.some.inj hbuild
  -- a field that was missing has its default, which is written like any other value
  have hb := inverts_backend.withDefault hbackend
  have hp := inverts_text.withDefault hpath
  refine ⟨by simp [hb.legible, hp.legible], fun n hn => ?_⟩
  show (decode n (encode backend)).bind (fun backend => (text n (ofString path)).bind fun path =>
    some (RepositorySettings.mk backend path)) = some (RepositorySettings.mk backend path)
  rw [hb.finds n hn, hp.finds n hn]
  rfl

/-- So are those of a cluster, whose time-out is bounded by the reader. -/
theorem recovers_clusterSettings :
    Recovers (decode : Decoder ClusterSettings) encode 1 .nowhere := by
  refine Recovers.record (fun _ => rfl) (by decide) fun _ _ hbuild => ?_
  obtain ⟨timeout, htimeout, hbuild⟩ := Option.bind_eq_some_iff.1 hbuild
  obtain rfl := Option.some.inj hbuild
  have ht := recovers_word.withDefault (restores_natural (by decide)) htimeout
  refine ⟨by simp [ht.legible], fun n hn => ?_⟩
  show (word n (ofNat timeout)).bind (fun timeout => some (ClusterSettings.mk timeout))
    = some (ClusterSettings.mk timeout)
  rw [ht.finds n hn]
  rfl

/-- So are those of pools, with their two bounded times. -/
theorem recovers_poolSettings :
    Recovers (decode : Decoder PoolSettings) encode 1 .nowhere := by
  refine Recovers.record (fun _ => rfl) (by decide) fun _ _ hbuild => ?_
  obtain ⟨interval, hinterval, hbuild⟩ := Option.bind_eq_some_iff.1 hbuild
  obtain ⟨timeout, htimeout, hbuild⟩ := Option.bind_eq_some_iff.1 hbuild
  obtain rfl := Option.some.inj hbuild
  have hi := recovers_word.withDefault (restores_natural (by decide)) hinterval
  have ht := recovers_word.withDefault (restores_natural (by decide)) htimeout
  refine ⟨by simp [hi.legible, ht.legible], fun n hn => ?_⟩
  show (word n (ofNat interval)).bind (fun interval => (word n (ofNat timeout)).bind fun timeout =>
    some (PoolSettings.mk interval timeout)) = some (PoolSettings.mk interval timeout)
  rw [hi.finds n hn, ht.finds n hn]
  rfl

/-- So are those of the log. -/
theorem recovers_logSettings :
    Recovers (decode : Decoder LogSettings) encode 1 .nowhere := by
  refine Recovers.record (fun _ => rfl) (by decide) fun _ _ hbuild => ?_
  obtain ⟨level, hlevel, hbuild⟩ := Option.bind_eq_some_iff.1 hbuild
  obtain ⟨json, hjson, hbuild⟩ := Option.bind_eq_some_iff.1 hbuild
  obtain rfl := Option.some.inj hbuild
  have hl := inverts_text.withDefault hlevel
  have hj := inverts_flag.withDefault hjson
  refine ⟨by simp [hl.legible, hj.legible], fun n hn => ?_⟩
  show (text n (ofString level)).bind (fun level => (flag n (.bool json)).bind fun json =>
    some (LogSettings.mk level json)) = some (LogSettings.mk level json)
  rw [hl.finds n hn, hj.finds n hn]
  rfl

/-- A section that is left out is the one of an empty object, which is recovered. -/
theorem restores_section {α : Type} {decode : Decoder α} {encode : α → Document} {default a : α}
    (h : decode.Recovers encode 1 .nowhere) (hempty : decode 1 (.object []) = some default)
    {f : Fields} {name : String} (ha : f.withDefault name decode default = some a) :
    decode.Restores (max 1 f.levels) (encode a) a := by
  have hdefault : decode.Restores (max 1 1) (encode default) default :=
    h hempty fun _ hpart => nomatch hpart
  exact h.withDefault hdefault ha

/-- **So are settings as a whole**, section by section. -/
theorem recovers_settings : Recovers (decode : Decoder Settings) encode 2 .nowhere := by
  refine Recovers.record (fun _ => rfl) (by decide) fun _ _ hbuild => ?_
  obtain ⟨repository, hrepository, hbuild⟩ := Option.bind_eq_some_iff.1 hbuild
  obtain ⟨cluster, hcluster, hbuild⟩ := Option.bind_eq_some_iff.1 hbuild
  obtain ⟨pool, hpool, hbuild⟩ := Option.bind_eq_some_iff.1 hbuild
  obtain ⟨log, hlog, hbuild⟩ := Option.bind_eq_some_iff.1 hbuild
  obtain rfl := Option.some.inj hbuild
  -- a section that is left out is read as its default, and written like any other
  have hr := restores_section recovers_repositorySettings rfl hrepository
  have hc := restores_section recovers_clusterSettings rfl hcluster
  have hp := restores_section recovers_poolSettings rfl hpool
  have hl := restores_section recovers_logSettings rfl hlog
  refine ⟨by simp [hr.legible, hc.legible, hp.legible, hl.legible], fun n hn => ?_⟩
  show (decode n (encode repository)).bind (fun repository =>
    (decode n (encode cluster)).bind fun cluster => (decode n (encode pool)).bind fun pool =>
      (decode n (encode log)).bind fun log => some (Settings.mk repository cluster pool log))
    = some (Settings.mk repository cluster pool log)
  rw [hr.finds n hn, hc.finds n hn, hp.finds n hn, hl.finds n hn]
  rfl

/-! ### Rules and statistics -/

section Combined

variable {α : Type} [Codec α] {spare : Nat} {parts : Parts}

/-- A list is recovered if its items are. -/
theorem recovers_list (h : Recovers (decode : Decoder α) encode spare parts) :
    Recovers (decode : Decoder (List α)) encode (spare + 1) parts.ofItems := h.list

/-- A map is recovered if its values are. -/
theorem recovers_map (h : Recovers (decode : Decoder α) encode spare parts) :
    Recovers (decode : Decoder (SortedMap α)) encodeMap (spare + 1) parts.ofMembers := h.map

end Combined

/-- A free value is recovered if its numbers are whole. -/
theorem recovers_value : Recovers (decode : Decoder Value) encode 0 .itself := Value.recovers

/-- A named rule is recovered; its values are free. -/
theorem recovers_namedRule :
    Recovers (decode : Decoder NamedRule) encode 2 NamedRule.freeForm := by
  refine Recovers.record (fun _ => rfl) (by decide) fun hf hparts hbuild => ?_
  obtain ⟨name, -, hbuild⟩ := Option.bind_eq_some_iff.1 hbuild
  obtain ⟨items, hitems, hbuild⟩ := Option.bind_eq_some_iff.1 hbuild
  obtain rfl := Option.some.inj hbuild
  -- the items are the only part that is free in form
  have hi := (recovers_map recovers_value).required hf hparts hitems
  refine ⟨by simpa [ofString] using ⟨rfl, hi.legible⟩, fun n hn => ?_⟩
  show (decode n (encodeMap items)).bind (fun items => some (NamedRule.mk name items))
    = some (NamedRule.mk name items)
  rw [hi.finds n hn]
  rfl

/-- A rule is restored under the name of its kind, one level higher. -/
theorem restores_kind {α : Type} [Codec α] {kind : String} {rule : α → Rule} {a : α} {levels : Nat}
    (h : Restores decode levels (encode a) a)
    (hfinds : ∀ n, decode (n + 1) (ofMembers [(kind, encode a)]) = rule <$> decode n (encode a)) :
    Restores decode (levels + 1) (ofMembers [(kind, encode a)]) (rule a) := by
  refine ⟨legible_ofMembers (by simpa using h.legible), .succ fun n hn => ?_⟩
  rw [hfinds, h.finds n hn]
  rfl

/-- A rule is recovered, whichever of the two kinds it is of. -/
theorem recovers_rule : Recovers (decode : Decoder Rule) encode 3 Rule.freeForm := by
  intro levels doc r h hparts
  have hle : ∀ {n k : Nat}, n ≤ 2 → max n k + 1 ≤ max 3 (k + 1) := by omega
  -- a rule is an object with one member, whose key is the kind
  dsimp only [decode] at h
  split at h
  · obtain ⟨single, hsingle, rfl⟩ := Option.map_eq_some_iff.1 h
    have hs := inverts_singleRule.recovers hsingle fun _ hpart => nomatch hpart
    exact (restores_kind hs fun _ => rfl).mono (hle (Nat.le_refl 2))
  · obtain ⟨named, hnamed, rfl⟩ := Option.map_eq_some_iff.1 h
    have hn := recovers_namedRule hnamed hparts
    exact (restores_kind hn fun _ => rfl).mono (hle (Nat.le_refl 2))
  · cases h

/-- The statistics of a table are recovered; their rows are free. -/
theorem recovers_tableStatistics :
    Recovers (decode : Decoder TableStatistics) encode 3 TableStatistics.freeForm := by
  refine Recovers.record (fun _ => rfl) (by decide) fun hf hparts hbuild => ?_
  obtain ⟨name, -, hbuild⟩ := Option.bind_eq_some_iff.1 hbuild
  obtain ⟨rows, hrows, hbuild⟩ := Option.bind_eq_some_iff.1 hbuild
  obtain rfl := Option.some.inj hbuild
  -- the rows are lists of lists of values
  have hr := (recovers_list (recovers_list recovers_value)).required hf hparts hrows
  refine ⟨by simpa [ofString] using ⟨rfl, hr.legible⟩, fun n hn => ?_⟩
  show (decode n (encode rows)).bind (fun rows => some (TableStatistics.mk name rows))
    = some (TableStatistics.mk name rows)
  rw [hr.finds n hn]
  rfl

/-- The statistics of a schema are those of its tables. -/
theorem recovers_schemaStatistics :
    Recovers (decode : Decoder SchemaStatistics) encode 5 SchemaStatistics.freeForm := by
  refine Recovers.record (fun _ => rfl) (by decide) fun hf hparts hbuild => ?_
  obtain ⟨tables, htables, hbuild⟩ := Option.bind_eq_some_iff.1 hbuild
  obtain rfl := Option.some.inj hbuild
  have ht := (recovers_map recovers_tableStatistics).required hf hparts htables
  refine ⟨by simpa using ht.legible, fun n hn => ?_⟩
  show (decode n (encodeMap tables)).bind (fun tables => some (SchemaStatistics.mk tables))
    = some (SchemaStatistics.mk tables)
  rw [ht.finds n hn]
  rfl

/-- The statistics of a database are those of its schemas. -/
theorem recovers_databaseStatistics :
    Recovers (decode : Decoder DatabaseStatistics) encode 7 DatabaseStatistics.freeForm := by
  refine Recovers.record (fun _ => rfl) (by decide) fun hf hparts hbuild => ?_
  obtain ⟨schemas, hschemas, hbuild⟩ := Option.bind_eq_some_iff.1 hbuild
  obtain rfl := Option.some.inj hbuild
  have hs := (recovers_map recovers_schemaStatistics).required hf hparts hschemas
  refine ⟨by simpa using hs.legible, fun n hn => ?_⟩
  show (decode n (encodeMap schemas)).bind (fun schemas => some (DatabaseStatistics.mk schemas))
    = some (DatabaseStatistics.mk schemas)
  rw [hs.finds n hn]
  rfl

end Codec

/-! ### All kinds -/

/-- **The kinds of metadata** that are kept as text. -/
inductive Metadata where
  | storageNode | poolProperties
  | column | index | table | view | schema
  | singleRule | namedRule | rule
  | properties
  | tableStatistics | schemaStatistics | databaseStatistics
  | settings
deriving DecidableEq

namespace Metadata

/-- The values of a kind. -/
abbrev Carrier : Metadata → Type
  | storageNode => StorageNode
  | poolProperties => PoolProperties
  | column => Column
  | index => Index
  | table => Table
  | view => View
  | schema => Schema
  | singleRule => SingleRule
  | namedRule => NamedRule
  | rule => Rule
  | properties => Properties
  | tableStatistics => TableStatistics
  | schemaStatistics => SchemaStatistics
  | databaseStatistics => DatabaseStatistics
  | settings => Settings

instance : (kind : Metadata) → Codec kind.Carrier
  | storageNode => inferInstanceAs (Codec StorageNode)
  | poolProperties => inferInstanceAs (Codec PoolProperties)
  | column => inferInstanceAs (Codec Column)
  | index => inferInstanceAs (Codec Index)
  | table => inferInstanceAs (Codec Table)
  | view => inferInstanceAs (Codec View)
  | schema => inferInstanceAs (Codec Schema)
  | singleRule => inferInstanceAs (Codec SingleRule)
  | namedRule => inferInstanceAs (Codec NamedRule)
  | rule => inferInstanceAs (Codec Rule)
  | properties => inferInstanceAs (Codec Properties)
  | tableStatistics => inferInstanceAs (Codec TableStatistics)
  | schemaStatistics => inferInstanceAs (Codec SchemaStatistics)
  | databaseStatistics => inferInstanceAs (Codec DatabaseStatistics)
  | settings => inferInstanceAs (Codec Settings)

/-- **The free-form parts** of a document of the kind: the items of rules that are not the
single-table rule, and the cells of collected rows. -/
def freeForm : Metadata → Parts
  | namedRule => NamedRule.freeForm
  | rule => Rule.freeForm
  | tableStatistics => TableStatistics.freeForm
  | schemaStatistics => SchemaStatistics.freeForm
  | databaseStatistics => DatabaseStatistics.freeForm
  | _ => .nowhere

/-- Every kind is recovered, and a text may be nested deeper than any of them needs. -/
theorem exists_recovers (kind : Metadata) : ∃ spare ≤ maxLevels,
    Recovers (Codec.decode : Decoder kind.Carrier) Codec.encode spare kind.freeForm := by
  -- one case for each type; those without free values are read back from any document
  cases kind with
  | storageNode => exact ⟨_, by decide, Codec.inverts_storageNode.recovers⟩
  | poolProperties => exact ⟨_, by decide, Codec.inverts_poolProperties.recovers⟩
  | column => exact ⟨_, by decide, Codec.inverts_column.recovers⟩
  | index => exact ⟨_, by decide, Codec.inverts_index.recovers⟩
  | table => exact ⟨_, by decide, Codec.inverts_table.recovers⟩
  | view => exact ⟨_, by decide, Codec.inverts_view.recovers⟩
  | schema => exact ⟨_, by decide, Codec.inverts_schema.recovers⟩
  | singleRule => exact ⟨_, by decide, Codec.inverts_singleRule.recovers⟩
  | namedRule => exact ⟨_, by decide, Codec.recovers_namedRule⟩
  | rule => exact ⟨_, by decide, Codec.recovers_rule⟩
  | properties => exact ⟨_, by decide, Codec.inverts_properties.recovers⟩
  | tableStatistics => exact ⟨_, by decide, Codec.recovers_tableStatistics⟩
  | schemaStatistics => exact ⟨_, by decide, Codec.recovers_schemaStatistics⟩
  | databaseStatistics => exact ⟨_, by decide, Codec.recovers_databaseStatistics⟩
  | settings => exact ⟨_, by decide, Codec.recovers_settings⟩

/-- **What is written for an accepted text is accepted as the same value**, and is written again as
the same text. -/
theorem rewrites_faithfully (kind : Metadata) {text : String} {doc : Document} {a : kind.Carrier}
    (hdoc : Document.read text = some doc) (ha : Codec.read? text = some a)
    (hparts : ∀ part ∈ kind.freeForm doc, part.Integral) :
    Codec.read? (Codec.write a) = some a
      ∧ (Codec.read? (Codec.write a) : Option kind.Carrier).map Codec.write
        = some (Codec.write a) := by
  obtain ⟨spare, hspare, hrecovers⟩ := kind.exists_recovers
  -- the text that was read is one document, of which the type makes a value
  have hdecode : Codec.decode maxLevels doc = some a := by
    rw [Codec.read?, hdoc] at ha
    exact ha
  have hrestores := (hrecovers hdecode hparts).mono (Nat.max_le.2 ⟨hspare, Nat.le_refl _⟩)
  have hread : Codec.read? (Codec.write a) = some a := by
    rw [Codec.read?, Codec.write, Document.read_toText hrestores.legible]
    exact hrestores.finds _ (Nat.le_refl _)
  exact ⟨hread, by rw [hread]; rfl⟩

/-- A rule as an array, with a repeated key, keys out of order, a blank and an escape. What is
written for it has none of these. -/
theorem rewrites_faithfully_named_rule :
    let text :=
      "\x7b\"Named\":[\"r\",\x7b\"b\":1,\"b\":[-7, 18446744073709551615],\"a\":\"\\u00e9\"\x7d]\x7d"
    let items : Document := .object [(some "b", .ofNat 1),
      (some "b", .array [.number (.ofInt (-7)), .ofNat 18446744073709551615]),
      (some "a", .ofString "é")]
    let doc : Document := .object [(some "Named", .array [.ofString "r", items])]
    let a : Rule := .named ⟨"r", .ofList [("a", .text "é"),
      ("b", .array [.integer (-7), .integer 18446744073709551615])]⟩
    Document.read text = some doc ∧ Codec.read? text = some a
      ∧ (∀ part ∈ freeForm .rule doc, part.Integral)
      ∧ Codec.write a = "\x7b\"Named\":\x7b\"name\":\"r\",\"items\":"
        ++ "\x7b\"a\":\"é\",\"b\":[-7,18446744073709551615]\x7d\x7d\x7d"
      ∧ Codec.read? (Codec.write a) = some a
      ∧ (Codec.read? (Codec.write a) : Option Rule).map Codec.write = some (Codec.write a) := by
  intro text items doc a
  -- the text uses the form with a list, a repeated member and an escape
  have hdoc : Document.read text = some doc := by
    dsimp only [text, doc, items]
    cbv
  have ha : Codec.read? text = some a := by
    rw [Codec.read?, hdoc]
    rfl
  have hparts : ∀ part ∈ freeForm .rule doc, part.Integral := by
    have hvalues : freeForm .rule doc = [.ofNat 1,
      .array [.number (.ofInt (-7)), .ofNat 18446744073709551615], .ofString "é"] := by rfl
    have hone : (Numeral.ofNat 1).IsInteger := by decide
    have hseven : (Numeral.ofInt (-7)).IsInteger := by decide
    have hgreatest : (Numeral.ofNat 18446744073709551615).IsInteger := by decide
    rw [hvalues]
    intro part hpart
    simp only [List.mem_cons, List.not_mem_nil, or_false] at hpart
    obtain rfl | rfl | rfl := hpart
    · exact hone
    · exact integral_array.2 (by simp [Integral, Every, Document.ofNat, hseven, hgreatest])
    · exact trivial
  exact ⟨hdoc, ha, hparts, by cbv, rewrites_faithfully .rule hdoc ha hparts⟩

end Metadata

end ClusterCatalog
