import ClusterCatalog.Proofs.Catalog.RuleText
import ClusterCatalog.Proofs.Store.Batch
import ClusterCatalog.Proofs.Store.Layout
import ClusterCatalog.Proofs.Store.Refinement
import ClusterCatalog.Store.Properties
import ClusterCatalog.Store.Rules

/-!
# Rules and properties of the whole cluster

A global rule is one versioned item under its name, and the properties of the cluster are one item. Both
are published as soon as they are written, so every write (`GlobalWrite`) goes through the numbering of
revisions, the pointer and the removal of older revisions, and the rules are found again by their nodes.

What this comes to is a table (`GlobalTable`): the last configuration under each name, and the last
properties. Writes make it from the empty table, and from an empty repository each of them refines its
change of the table (`GlobalWrite.refines_access`), however often a name is rewritten and whatever names
it continues. Loading reads the table (`GlobalWrite.loads_last`).

A configuration is kept as one text. That the values of a rule of items are read back, each from its own
text, is asked of the configurations that are written (`Rule.ReadsBack`), for these values are free-form.
It does not follow that a configuration is read back: what is nested too deep for the whole text is still
written, and then the rules cannot be loaded at all, until the configuration is replaced. So what is
loaded depends on whether the configurations of the moment are shallow (`GlobalTable.Shallow`). The
properties and the single-table rule are read back always.
-/

namespace ClusterCatalog

open Plan Repository

/-- What the node of one rule contributes to the rules that are loaded. -/
def Stored.globalRuleAt (name : String) : Access (List Rule) := do
  match ← Item.activeValue (Path.globalRule name) with
  | some text => return [← Access.parse text]
  | none => return []

/-- Global rules are loaded name by name, and what each name contributes is put together. -/
theorem Stored.loadGlobalRules_eq : Stored.loadGlobalRules
    = Access.children Path.globalRulesRoot >>= fun names =>
      names.mapM Stored.globalRuleAt >>= fun found => pure found.flatten := rfl

/-! ### Tables -/

/-- **What is kept of the cluster as a whole**: a configuration under each name of a rule, and the
properties once they are written. -/
structure GlobalTable where
  rules : SortedMap Rule := ∅
  properties : Option Properties := none

namespace GlobalTable

variable {t t' : GlobalTable} {r : Repository} {written : List Path} {rule : Rule}
  {props : Properties} {x : VersionedItem}

/-- A configuration takes the place of the one under its name. -/
def putRule (t : GlobalTable) (rule : Rule) : GlobalTable :=
  { t with rules := t.rules.insert rule.name rule }

/-- The properties take the place of those before. -/
def putProperties (t : GlobalTable) (props : Properties) : GlobalTable :=
  { t with properties := some props }

/-- Configurations that are put in one after the other leave the properties alone. -/
theorem foldl_putRule (t : GlobalTable) (rules : List Rule) : rules.foldl putRule t
    = { t with rules := rules.foldl (fun m rule => m.insert rule.name rule) t.rules } := by
  induction rules generalizing t with
  | nil => rfl
  | cons rule rules ih => exact ih (t.putRule rule)

/-- The text of an item. -/
def text (t : GlobalTable) : VersionedItem → Option String
  | .globalRule name => (t.rules.get? name).map Codec.write
  | .properties => t.properties.map Codec.write
  | _ => none

/-- A rule that is put into the table is the text of its own item, and changes no other. -/
theorem text_putRule : (t.putRule rule).text x
    = if x = .globalRule rule.name then some (Codec.write rule) else t.text x := by
  cases x with
  | globalRule name =>
    show ((t.rules.insert rule.name rule).get? name).map Codec.write = _
    rw [SortedMap.get?_insert]
    by_cases hname : name = rule.name
    · rw [if_pos hname, hname, if_pos rfl]
      rfl
    · rw [if_neg hname, if_neg fun h => hname (VersionedItem.globalRule.inj h)]
      rfl
  | definition place => rfl
  | unit db name => rfl
  | ruleItem db rule name => rfl
  | properties => rfl

/-- Properties that are put into the table are the text of their own item, and change no other. -/
theorem text_putProperties : (t.putProperties props).text x
    = if x = .properties then some (Codec.write props) else t.text x := by
  cases x <;> rfl

/-- **The rules of a table stand under their names**, and each of their values is read back. -/
def Sound (t : GlobalTable) : Prop :=
  ∀ name rule, t.rules.get? name = some rule → rule.name = name ∧ Path.IsName name ∧ rule.ReadsBack

/-- **No rule of a table is nested too deep** for its text. -/
def Shallow (t : GlobalTable) : Prop := ∀ rule ∈ t.rules.values, rule.Shallow

instance (t : GlobalTable) : Decidable t.Shallow :=
  inferInstanceAs (Decidable (∀ rule ∈ t.rules.values, _))

/-- An empty table has nothing that could be unsound. -/
theorem sound_empty : Sound {} := fun _ _ h => by cases h

/-- A rule whose name can stand in a path and whose values read back may be put in. -/
theorem Sound.putRule (h : t.Sound) (hname : Path.IsName rule.name) (hreads : rule.ReadsBack) :
    (t.putRule rule).Sound := by
  intro name rule' hget
  rw [show (t.putRule rule).rules = t.rules.insert rule.name rule from rfl,
    SortedMap.get?_insert] at hget
  split at hget
  · rename_i heq
    subst heq
    obtain rfl := Option.some.inj hget
    exact ⟨rfl, hname, hreads⟩
  · exact h name rule' hget

/-! ### The relation to a repository -/

/-- **A repository stands for a table** after the items at the listed paths were written to, once for
each time they are listed. Items of other kinds are not there. -/
structure StoredIn (r : Repository) (written : List Path) (t : GlobalTable) : Prop where
  rooted : Rooted r
  batch : Item.Batch (fun x : {x : VersionedItem // x.Named} => x.1.path) r written []
    fun x => t.text x.1

/-- An empty repository stands for the empty table. -/
theorem storedIn_empty (h : r.nodes = ∅) : StoredIn r [] {} := by
  have htexts : (fun x : {x : VersionedItem // x.Named} => text {} x.1) = fun _ => none := by
    funext ⟨x, hx⟩
    cases x <;> rfl
  refine ⟨rooted_of_nodes_eq_empty h, ?_⟩
  rw [htexts]
  exact Item.batch_of_nodes_eq_empty h

/-- **Publishing a text** refines a change of the table that gives this text to the item. -/
theorem refines_publish {f : GlobalTable → GlobalTable} (hx : x.Named) (v : String)
    (htext : ∀ t y, (f t).text y = if y = x then some v else t.text y) :
    Access.Refines StoredIn (Item.publish x.path v >>= fun _ => pure ()) [x.path] f := by
  intro r written t hr hcount
  -- there is room for one more revision of the item
  have hlt : written.count x.path < maxRevision := by
    have hle := hcount x.path
    rw [List.count_append, List.count_singleton_self] at hle
    exact hle
  have hapart : ∀ i j : {x : VersionedItem // x.Named}, j ≠ i → i.1.path.Apart j.1.path :=
    fun i j hne => VersionedItem.apart i.2 j.2 fun h => hne (Subtype.ext h.symm)
  have htexts : ∀ j : {x : VersionedItem // x.Named},
      (f t).text j.1 = if j = ⟨x, hx⟩ then some v else t.text j.1 := fun j =>
    (htext t j.1).trans (if_congr (by rw [Subtype.ext_iff]) rfl rfl)
  -- publishing one of a batch of separate items leaves the other ones as they are
  have hpublish := Item.Batch.keeps_publish hr.batch hapart (i := ⟨x, hx⟩) x.path_ne_empty hlt htexts
  have hrooted := keeps_rooted (Item.publish x.path v) hr.rooted
  refine (hpublish.and (Access.keeps_of_unsure hrooted)).bind (fun _ s' h' => ?_)
    fun _ _ ⟨⟨⟨_, h⟩, _⟩, _⟩ => by cases h
  exact ⟨rfl, h'.2, h'.1.2⟩

/-- An item shows the text of the table. -/
theorem StoredIn.showsAt (h : StoredIn r written t) (hx : x.Named) :
    Item.ShowsAt r x.path (t.text x) := (h.batch.queued ⟨x, hx⟩).shows rfl

/-- The value of an item is the text that the table has for it. -/
theorem StoredIn.reads_activeValue (h : StoredIn r written t) (hx : x.Named) :
    Access.Reads r (Item.activeValue x.path) (.ok (t.text x)) :=
  (h.showsAt hx).value_eq h.rooted x.path_ne_empty ▸ Item.reads_activeValue x.path

/-- **The properties are loaded.** -/
theorem StoredIn.reads_loadProperties (h : StoredIn r written t) :
    Access.Reads r Stored.loadProperties (.ok (t.properties.getD ∅)) := by
  have hactive := h.reads_activeValue VersionedItem.named_properties
  change Access.Reads r (Item.activeValue Path.properties) (.ok (t.properties.map Codec.write)) at hactive
  refine hactive.bind_ok ?_
  cases t.properties with
  | none => exact Access.reads_pure _
  | some props =>
    show Access.Reads r (Access.parse (Codec.write props)) (.ok props)
    rw [Access.parse, Codec.read?_write Codec.inverts_properties (by decide)]
    exact Access.reads_pure props

/-- What is loaded from the node of a name. -/
def loaded (t : GlobalTable) (name : String) : List Rule :=
  ((t.rules.get? name).map Codec.readBack).toList

/-- What the names of a table contribute is what is read back of its rules. -/
theorem flatten_loaded (t : GlobalTable) :
    (t.rules.keys.map t.loaded).flatten = t.rules.values.map Codec.readBack := by
  have hentry : ∀ e ∈ t.rules.entries, t.loaded e.1 = [Codec.readBack e.2] := fun e he => by
    rw [loaded, t.rules.get?_eq_some_iff.2 he]
    rfl
  rw [SortedMap.keys, SortedMap.values, List.map_map, List.map_map, ← List.flatMap_def]
  exact (List.flatMap_congr hentry).trans (List.flatMap_pure_eq_map _ _)

/-- The nodes of the rules are those of their names. -/
theorem StoredIn.children_eq (h : StoredIn r written t) (ht : t.Sound) :
    r.children Path.globalRulesRoot = t.rules.keys := by
  have hnames : ∀ name, t.rules.contains name = true → Path.IsName name := fun name hcontains => by
    obtain ⟨rule, hget⟩ := SortedMap.contains_iff.1 hcontains
    exact (ht name rule hget).2.1
  have hshows : ∀ name, Path.IsName name →
      Item.ShowsAt r (Path.globalRule name) ((t.rules.get? name).map Codec.write) := fun name hname =>
    h.showsAt (VersionedItem.named_globalRule_iff.2 hname)
  have hroot : Path.globalRulesRoot = Path.child "" "rules" := rfl
  refine children_eq_keys (fun name => ?_) (Item.mem_listing_iff hnames hshows)
  rw [Path.globalRule, hroot]
  exact Path.below_child_append (by decide) name

/-- **A rule is loaded from its node** as it is read back if it is shallow, and its text cannot be read if
it is not. -/
theorem StoredIn.reads_globalRuleAt (h : StoredIn r written t) (ht : t.Sound) {name : String}
    (hget : t.rules.get? name = some rule) :
    Access.Reads r (Stored.globalRuleAt name)
      (if rule.Shallow then .ok [Codec.readBack rule] else .error (.error .malformedText)) := by
  obtain ⟨-, hname, hvalues⟩ := ht name rule hget
  have hactive := h.reads_activeValue (VersionedItem.named_globalRule_iff.2 hname)
  simp only [text, hget] at hactive
  -- the item has its text; whether the text is read depends on how deep it is nested
  refine hactive.bind_ok ?_
  show Access.Reads r (Access.parse (Codec.write rule) >>= fun rule => pure [rule]) _
  rw [Access.parse]
  split
  · rename_i hshallow
    rw [(Rule.readsBack_of_shallow hvalues hshallow).read?.1]
    exact Access.reads_pure _
  · rename_i hdeep
    rw [Rule.read?_write_of_not_shallow hdeep]
    exact fun _ _ _ hpost => hpost

/-- **The rules are loaded** in ascending order of their names, each as it is read back, if all of them
are shallow. -/
theorem StoredIn.reads_loadGlobalRules (h : StoredIn r written t) (ht : t.Sound)
    (hshallow : t.Shallow) :
    Access.Reads r Stored.loadGlobalRules (.ok (t.rules.values.map Codec.readBack)) := by
  rw [← t.flatten_loaded, Stored.loadGlobalRules_eq]
  refine (Access.reads_children _).bind_ok ?_
  rw [h.children_eq ht]
  refine Access.Reads.bind_ok (Access.Reads.mapM_of_mem fun name hname => ?_) (Access.reads_pure _)
  obtain ⟨rule, hget⟩ := SortedMap.contains_iff.1 (t.rules.mem_keys_iff.1 hname)
  have hrule := h.reads_globalRuleAt ht hget
  rw [if_pos (hshallow rule (SortedMap.mem_values_iff.2 ⟨name, hget⟩))] at hrule
  simp only [loaded, hget]
  exact hrule

/-- **The rules are not loaded** if one of them is not shallow. -/
theorem StoredIn.reads_loadGlobalRules_error (h : StoredIn r written t) (ht : t.Sound)
    (hdeep : ¬ t.Shallow) :
    Access.Reads r Stored.loadGlobalRules (.error (.error .malformedText)) := by
  rw [Stored.loadGlobalRules_eq]
  refine (Access.reads_children _).bind_ok ?_
  rw [h.children_eq ht]
  refine Access.Reads.bind_error (Access.Reads.mapM_error (fun name hname => ?_) ?_)
  · -- a name contributes its rule, or it ends the loading, and then for this reason
    obtain ⟨rule, hget⟩ := SortedMap.contains_iff.1 (t.rules.mem_keys_iff.1 hname)
    have hrule := h.reads_globalRuleAt ht hget
    by_cases hshallow : rule.Shallow
    · rw [if_pos hshallow] at hrule
      exact .inl ⟨_, hrule⟩
    · rw [if_neg hshallow] at hrule
      exact .inr hrule
  · -- and one of the names does end it, since one of the rules is nested too deep
    obtain ⟨rule, hmem, hnot⟩ : ∃ rule ∈ t.rules.values, ¬ rule.Shallow := by
      simpa [Shallow] using hdeep
    obtain ⟨name, hget⟩ := SortedMap.mem_values_iff.1 hmem
    have hname : name ∈ t.rules.keys := t.rules.mem_keys_iff.2 (SortedMap.contains_iff.2 ⟨rule, hget⟩)
    have hrule := h.reads_globalRuleAt ht hget
    rw [if_neg hnot] at hrule
    exact ⟨name, hname, hrule⟩

end GlobalTable

/-! ### Writes -/

/-- **A configuration is in order**: the rule has a name, and its values are read back, each from its
own text. -/
structure Rule.Restorable (rule : Rule) : Prop where
  name : Path.IsName rule.name
  values : rule.ReadsBack

instance (rule : Rule) : Decidable rule.Restorable :=
  decidable_of_iff (Path.IsName rule.name ∧ rule.ReadsBack)
    ⟨fun ⟨name, values⟩ => ⟨name, values⟩, fun h => ⟨h.name, h.values⟩⟩

/-- **A write to the cluster as a whole**: configurations of rules in order, or the properties. -/
inductive GlobalWrite where
  | rules (configs : List Rule)
  | properties (props : Properties)

namespace GlobalWrite

variable {r : Repository}

/-- The calls of a write. -/
def access : GlobalWrite → Access Unit
  | rules configs => Stored.persistGlobalRules configs
  | properties props => Stored.persistProperties props

/-- **What a write does to a table.** -/
def update : GlobalWrite → GlobalTable → GlobalTable
  | rules configs, t => configs.foldl GlobalTable.putRule t
  | properties props, t => t.putProperties props

/-- The items that are written to, each as often as it is written to. -/
def written : GlobalWrite → List Path
  | rules configs => configs.flatMap fun rule => [Path.globalRule rule.name]
  | properties _ => [Path.properties]

/-- What writes make of the empty table. -/
def table (ops : List GlobalWrite) : GlobalTable := ops.foldl (fun t op => op.update t) {}

/-- The configurations of a write. -/
def configurations : GlobalWrite → List Rule
  | rules configs => configs
  | properties _ => []

/-- The properties of a write. -/
def properties? : GlobalWrite → Option Properties
  | rules _ => none
  | properties props => some props

/-! ### What a table holds -/

/-- **Under each name** a table holds the last configuration that was written under it, whatever kind of
rule it is for. -/
theorem get?_table (ops : List GlobalWrite) (name : String) :
    (table ops).rules.get? name
      = (ops.flatMap configurations).reverse.find? fun rule => rule.name == name := by
  -- a table is the result of putting in all configurations, one after the other
  have hrules : ∀ (ops : List GlobalWrite) (t : GlobalTable),
      (ops.foldl (fun t op => op.update t) t).rules
        = (ops.flatMap configurations).foldl (fun m rule => m.insert rule.name rule) t.rules := by
    intro ops
    induction ops with
    | nil => exact fun _ => rfl
    | cons op ops ih =>
      intro t
      rw [List.foldl_cons, ih, List.flatMap_cons, List.foldl_append]
      cases op with
      | rules configs =>
        rw [update, t.foldl_putRule]
        rfl
      | properties props => rfl
  -- of equal names the one that was put in last is found, and before the first there was none
  rw [table, hrules, SortedMap.get?_foldl_insert_key]
  exact Option.or_none

/-- **The properties** of a table are the last ones that were written. -/
theorem properties_table (ops : List GlobalWrite) :
    (table ops).properties = (ops.filterMap properties?).getLast? := by
  -- the last write decides, unless it is one of rules
  induction ops using List.reverseRecOn with
  | nil => rfl
  | append_singleton ops op ih =>
    rw [table, List.foldl_append, List.filterMap_append]
    cases op with
    | rules configs =>
      rw [show [rules configs].filterMap properties? = [] from rfl, List.append_nil, ← ih]
      show (configs.foldl GlobalTable.putRule (table ops)).properties = _
      rw [GlobalTable.foldl_putRule]
    | properties props =>
      rw [show [properties props].filterMap properties? = [props] from rfl,
        List.getLast?_concat]
      rfl

/-! ### Runs -/

/-- A write of configurations that are in order leaves a table that is. -/
theorem sound_update {op : GlobalWrite} (hop : ∀ rule ∈ op.configurations, rule.Restorable)
    {t : GlobalTable} (ht : t.Sound) : (op.update t).Sound := by
  cases op with
  | rules configs =>
    exact List.foldlRecOn configs _ ht fun _ h rule hrule =>
      h.putRule (hop rule hrule).name (hop rule hrule).values
  | properties props => exact ht

/-- **A write refines its change** of the table. -/
theorem refines_access {op : GlobalWrite} (hop : ∀ rule ∈ op.configurations, rule.Restorable) :
    Access.Refines GlobalTable.StoredIn op.access op.written op.update := by
  cases op with
  | rules configs =>
    refine Access.Refines.forM fun rule hrule => ?_
    exact GlobalTable.refines_publish (VersionedItem.named_globalRule_iff.2 (hop rule hrule).name) _
      fun _ _ => GlobalTable.text_putRule
  | properties props =>
    exact GlobalTable.refines_publish VersionedItem.named_properties _
      fun _ _ => GlobalTable.text_putProperties

/-- **A run of writes** ends well, and the repository stands for the table of the writes. -/
theorem exists_run {ops : List GlobalWrite} {r : Repository} (hempty : r.nodes = ∅)
    (hops : ∀ op ∈ ops, ∀ rule ∈ op.configurations, rule.Restorable)
    (hcount : ∀ path, ([] ++ ops.flatMap written).count path ≤ maxRevision) :
    ∃ r', (ops.forM access).run Repository.answer r = (.ok (), r')
      ∧ GlobalTable.StoredIn r' (ops.flatMap written) (table ops) ∧ (table ops).Sound := by
  have hrun := Access.keeps_run_iff.1 ((Access.Refines.forM fun op hop => refines_access (hops op hop))
    r [] {} (GlobalTable.storedIn_empty hempty) hcount)
  obtain ⟨hok, hstored⟩ := hrun
  exact ⟨_, Prod.ext hok rfl, hstored,
    List.foldlRecOn ops _ GlobalTable.sound_empty fun _ h op hop => sound_update (hops op hop) h⟩

/-- **What was written last is loaded**, unless it is nested too deep. From an empty repository each write
ends well. After each of them the rules that are loaded are, in ascending order of their names, the last
configurations under the names that were written so far, provided that all of these are shallow; if one of
them is not, the rules cannot be loaded. The properties that are loaded are the last ones, or none before
they are written. Rules are to have names and values that are read back, each from its own text, and no
item is to be written to 2^32 times. -/
theorem loads_last (ops : List GlobalWrite) (r : Repository) (hempty : r.nodes = ∅)
    (hops : ∀ op ∈ ops, ∀ rule ∈ op.configurations, rule.Restorable)
    (hcount : ∀ path, (ops.flatMap written).count path < 2 ^ 32) :
    ∀ done, done <+: ops → ∃ r', (done.forM access).run Repository.answer r = (.ok (), r')
      ∧ ((table done).Shallow → ∃ rules, Stored.loadGlobalRules.run Repository.answer r' = (.ok rules, r')
          ∧ (rules == (table done).rules.values) = true)
      ∧ (¬ (table done).Shallow →
          Stored.loadGlobalRules.run Repository.answer r' = (.error (.error .malformedText), r'))
      ∧ Stored.loadProperties.run Repository.answer r'
          = (.ok ((table done).properties.getD ∅), r') := by
  intro done hdone
  -- what has been done is a part of all writes, so it fits as well
  have hcountDone := Access.count_le_of_prefix hdone hcount
  obtain ⟨r', hrun, hstored, hsound⟩ := exists_run hempty (fun op hop => hops op (hdone.mem hop))
    hcountDone
  refine ⟨r', hrun, fun hshallow => ⟨_, (hstored.reads_loadGlobalRules hsound hshallow).run, ?_⟩,
    fun hdeep => (hstored.reads_loadGlobalRules_error hsound hdeep).run,
    hstored.reads_loadProperties.run⟩
  -- each configuration is loaded as an equal one
  have hequal : ∀ rule ∈ (table done).rules.values, (Codec.readBack rule == id rule) = true := by
    intro rule hrule
    obtain ⟨name, hget⟩ := SortedMap.mem_values_iff.1 hrule
    exact (Rule.readsBack_of_shallow (hsound name rule hget).2.2 (hshallow rule hrule)).read?.2
  have hvalues := map_beq_map hequal
  rw [List.map_id] at hvalues
  exact hvalues

/-- The single-table rule is written, gives way to a rule of items of its name and comes back; another
rule is rewritten twice, once within one write, and has a name that a third one continues. -/
def rewriting : List GlobalWrite :=
  [.rules [.single ⟨["u.*"], none⟩, .named ⟨"r", .ofList [("a", .integer 1)]⟩],
    .properties (.ofList [("k", "v")]),
    .rules [.named ⟨"single", .ofList [("a", .null)]⟩, .named ⟨"r1", .ofList [("b", .text "/")]⟩,
      .named ⟨"r", ∅⟩, .named ⟨"r", .ofList [("versions", .array [.bool true])]⟩],
    .properties (.ofList [("l", "w")]),
    .rules [.single ⟨[], some "u"⟩]]

/-- Of each name the configuration that was written last is loaded, in the order of the names. -/
theorem loads_last_rewriting :
    ∃ r', (rewriting.forM access).run Repository.answer (.memory ⟨∅⟩) = (.ok (), r')
      ∧ (∃ rules, Stored.loadGlobalRules.run Repository.answer r' = (.ok rules, r')
          ∧ (rules == [.named ⟨"r", .ofList [("versions", .array [.bool true])]⟩,
            .named ⟨"r1", .ofList [("b", .text "/")]⟩, .single ⟨[], some "u"⟩]) = true)
      ∧ Stored.loadProperties.run Repository.answer r' = (.ok (.ofList [("l", "w")]), r') := by
  have hcount : ∀ path, (rewriting.flatMap written).count path < 2 ^ 32 := fun path =>
    Nat.lt_of_le_of_lt List.count_le_length (by decide)
  obtain ⟨r', hrun, hrules, -, hproperties⟩ := loads_last rewriting (.memory ⟨∅⟩) rfl (by decide +kernel)
    hcount rewriting List.prefix_rfl
  exact ⟨r', hrun, hrules (by decide +kernel), hproperties⟩

/-- Arrays within each other, as many as given. -/
def nested : Nat → Value
  | 0 => .null
  | n + 1 => .array [nested n]

/-- Nested arrays are as deep as there are of them. -/
theorem depth_nested (n : Nat) : (nested n).depth = n := by
  induction n with
  | zero => rfl
  | succ n ih =>
    show max (nested n).depth 0 + 1 = n + 1
    rw [ih, Nat.max_zero]

/-- They are found where as many levels may be entered. -/
theorem ofDocument_nested {n levels : Nat} (h : n ≤ levels) :
    Value.ofDocument levels (nested n).toDocument = some (nested n) := by
  induction n generalizing levels with
  | zero => cases levels <;> rfl
  | succ n ih =>
    cases levels with
    | zero => cases h
    | succ levels =>
      have hitem := ih (Nat.le_of_succ_le_succ h)
      show Value.array <$> Value.ofItems levels [(nested n).toDocument] = _
      rw [Value.ofItems, hitem]
      rfl

/-- So they are read back from their own text, if that is not nested too deep. -/
theorem readsBack_nested {n : Nat} (h : n ≤ Decoder.maxLevels) : Codec.ReadsBack (nested n) := by
  have hself : (nested n == nested n) = true := by
    clear h
    induction n with
    | zero => rfl
    | succ n ih =>
      show (nested n == nested n && true) = true
      rw [ih, Bool.true_and]
  unfold Codec.ReadsBack
  rw [Codec.read?, Codec.write]
  show ((Document.read (nested n).toDocument.toText).bind fun doc =>
    Value.ofDocument Decoder.maxLevels doc).any (· == nested n) = true
  -- the text is read as the document that was written, and that has no more levels than may be entered
  rw [Document.read_toText (nested n).legible_toDocument, Option.bind_some, ofDocument_nested h]
  exact hself

/-- **Not every configuration that is in order is loaded again.** A value of 125 arrays within each other
is read back from its own text. It is written with the configuration of a rule, and then no rules can be
loaded. -/
theorem loads_none_of_too_deep :
    let rule : Rule := .named ⟨"r", .ofList [("k", nested 125)]⟩
    rule.Restorable ∧ ∃ r', ([rules [rule]].forM access).run Repository.answer (.memory ⟨∅⟩) = (.ok (), r')
      ∧ Stored.loadGlobalRules.run Repository.answer r' = (.error (.error .malformedText), r') := by
  intro rule
  have hrule : rule.Restorable :=
    ⟨by decide, fun e he => List.mem_singleton.1 he ▸ readsBack_nested (by decide)⟩
  -- in the stored text three levels are spent before the value begins
  have hdeep : ¬ (table [rules [rule]]).Shallow := fun h => by
    have hle := h rule List.mem_cons_self ("k", nested 125) List.mem_cons_self
    rw [depth_nested] at hle
    exact absurd hle (by decide)
  have hops : ∀ op ∈ [rules [rule]], ∀ x ∈ op.configurations, x.Restorable := by
    simpa [configurations] using hrule
  have hempty : (Repository.memory ⟨∅⟩).nodes = ∅ := rfl
  obtain ⟨r', hrun, hstored, hsound⟩ := exists_run hempty hops
    fun path => Nat.le_trans List.count_le_length (by decide)
  exact ⟨hrule, r', hrun, (hstored.reads_loadGlobalRules_error hsound hdeep).run⟩

end GlobalWrite

end ClusterCatalog
