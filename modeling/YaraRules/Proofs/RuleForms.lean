import YaraRules.Proofs.NameListings
import YaraRules.Proofs.NameRoles
import YaraRules.Proofs.RuleRows
import YaraRules.Proofs.StreamWords

/-! Rules and files in good form. What a rule says of itself it says once, its sections and
the colon before its tags are there when they are needed, and its strings are kept under
the names that their tokens have. Its name, its modifiers, its tags and the names of its
strings are written by their own literals, so the form of a rule outlasts every change that
does not touch its own words. -/

namespace YaraRules

/-- No modifier and no tag is repeated, what leads to others is there with them, and strings are kept under
their names. -/
structure Rule.Formed (tokens : TokenStream) (rule : Rule) : Prop where
  modifiers : (rule.modifiers.map fun h => (tokens.get? h).map (·.kind)).Nodup
  tags : (rule.tagTexts tokens).Nodup
  colon : rule.tagColon.isSome ↔ rule.tags ≠ []
  metas : rule.metas ≠ [] → rule.metaSection.isSome
  strings : rule.stringSection.isSome ↔ rule.strings.values ≠ []
  indexed : rule.strings.Indexed
  distinct : rule.strings.Distinct "$"
  keyed : ∀ string ∈ rule.strings.toList, tokens.text string.2.id = string.1

/-- The text begins with the sigil of a definition. -/
def Sigiled (text : String) : Prop := text.toList.head? = some '$'

/-- Names of strings begin with a sigil. -/
def Rule.Sigiled (rule : Rule) : Prop := ∀ string ∈ rule.strings.toList, YaraRules.Sigiled string.1

namespace Rule

theorem ids_row (rule : Rule) : rule.ids ⊆ rule.strings.values.flatMap StringDefinition.row := by
  intro h member
  obtain ⟨string, listed, rfl⟩ := List.mem_map.mp member
  exact List.mem_flatMap.mpr ⟨string, listed, by simp [StringDefinition.row]⟩

theorem name_head (rule : Rule) : rule.name ∈ rule.headRow := by simp [headRow]

theorem ids_head (rule : Rule) {h : Handle} (held : h ∈ rule.ids) : h ∈ rule.headRow := by
  simp [headRow, stringRow, rule.ids_row held]

/-- The tokens that give the rule and its strings their names. -/
def definitions (rule : Rule) : List Handle := rule.name :: rule.ids

theorem definitions_head (rule : Rule) : rule.definitions ⊆ rule.headRow :=
  List.cons_subset.mpr ⟨rule.name_head, fun _ => rule.ids_head⟩

theorem definitions_row (rule : Rule) : rule.definitions ⊆ rule.row :=
  fun _ member => rule.row_eq ▸ List.mem_append_left _ (rule.definitions_head member)

/-- The names of the rule and of its strings are texts. -/
def Texted (tokens : TokenStream) (rule : Rule) : Prop :=
  ∀ h ∈ rule.definitions, ∃ a, tokens.get? h = some a ∧ a.literal.asText?.isSome

end Rule

/-- Rules and modules have different names, and all rules are in good form. -/
structure RuleFile.Formed (file : RuleFile) : Prop where
  names : (file.rules.map (·.nameText file.tokens)).Nodup
  imports : (file.imports.map (·.moduleName)).Nodup
  rules : ∀ rule ∈ file.rules, rule.Formed file.tokens

namespace Rule.Formed

variable {s after : TokenStream} {rule : Rule}

/-- The form of a rule depends on the kinds of its modifiers and on the texts of its tags and of the names of
its strings. -/
theorem of_same (formed : rule.Formed s) (kinds : ∀ h ∈ rule.modifiers, (after.get? h).map (·.kind) =
    (s.get? h).map (·.kind)) (texts : ∀ h ∈ rule.tags ++ rule.ids, after.text h = s.text h) : rule.Formed after where
  modifiers := List.map_congr_left kinds ▸ formed.modifiers
  tags := by
    rw [tagTexts, List.map_congr_left fun h member => texts h (List.mem_append_left _ member)]
    exact formed.tags
  colon := formed.colon
  metas := formed.metas
  strings := formed.strings
  indexed := formed.indexed
  distinct := formed.distinct
  keyed string member := by
    have named : string.2.id ∈ rule.ids := List.mem_map.mpr ⟨string.2, List.mem_map_of_mem member, rfl⟩
    exact (texts _ (List.mem_append_right _ named)).trans (formed.keyed string member)

end Rule.Formed

/-! ### Words of a rule -/

open TokenStream (Plain Spares)

/-- A token that defines a name of the kind is a text. -/
structure Token.Names (kind : TokenKind) (a : Token) : Prop where
  kind : a.kind = kind
  text : a.literal.asText?.isSome

/-- A rule in good form with the tokens that its words have. -/
structure Rule.Proper (tokens : TokenStream) (rule : Rule) : Prop extends Rule.Formed tokens rule where
  named : ∃ a, tokens.Tells rule.name a ∧ a.Names .ruleName
  spelled : ∀ h ∈ rule.modifiers ++ rule.tags, ∃ a, tokens.Tells h a
  defined : ∀ h ∈ rule.ids, ∃ a, tokens.Tells h a ∧ a.Names .stringDefinition

namespace Rule

/-- The name, the modifiers, the tags and the names of the strings. -/
def words (rule : Rule) : List Handle := rule.name :: (rule.modifiers ++ rule.tags ++ rule.ids)

theorem words_head (rule : Rule) : rule.words ⊆ rule.headRow := by
  intro h member
  simp only [words, List.mem_cons, List.mem_append] at member
  rcases member with rfl | (modifier | tag) | id
  · exact rule.name_head
  · simp [headRow, modifier]
  · simp [headRow, tagRow, tag]
  · exact rule.ids_head id

theorem words_row (rule : Rule) : rule.words ⊆ rule.row :=
  fun _ member => rule.row_eq ▸ List.mem_append_left _ (rule.words_head member)

theorem name_apart {rule : Rule} (once : rule.row.Nodup) : rule.name ∉ rule.modifiers ++ rule.tags ++ rule.ids := by
  obtain ⟨_, others, before⟩ := List.nodup_append'.mp once
  obtain ⟨_, _, behind⟩ := List.nodup_append'.mp others
  simp only [List.mem_append, not_or]
  refine ⟨⟨fun modifier => before modifier (by simp), fun tag => behind (a := rule.name) (by simp) ?_⟩,
    fun id => behind (a := rule.name) (by simp) ?_⟩
  · simp [tagRow, tag]
  · simp [bodyRow, stringRow, rule.ids_row id]

namespace Proper

variable {s after : TokenStream} {rule : Rule}

theorem filed (proper : rule.Proper s) : rule.Filed where
  neat := proper.indexed.toNeat
  header missing := by
    by_contra filled
    simpa [missing] using proper.strings.mpr filled

/-- What gives a rule or a string its name is told, and a text. -/
theorem definition (proper : rule.Proper s) {h : Handle} (member : h ∈ rule.definitions) :
    ∃ a, s.Tells h a ∧ (a.Names .ruleName ∨ a.Names .stringDefinition) := by
  rcases List.mem_cons.mp member with rfl | id
  · obtain ⟨a, tells, names⟩ := proper.named
    exact ⟨a, tells, .inl names⟩
  · obtain ⟨a, tells, names⟩ := proper.defined h id
    exact ⟨a, tells, .inr names⟩

theorem nameText (proper : rule.Proper s) : ∃ a, s.Tells rule.name a ∧ rule.nameText s = a.literal.text := by
  obtain ⟨a, tells, names⟩ := proper.named
  refine ⟨a, tells, tells.text.trans ?_⟩
  rw [names.kind]
  rfl

/-- A rule may get another name while its other words stay. -/
theorem renamed (proper : rule.Proper s) (spares : Spares s after (rule.modifiers ++ rule.tags ++ rule.ids))
    (named : ∃ a, after.Tells rule.name a ∧ a.Names .ruleName) : rule.Proper after := by
  refine ⟨proper.toFormed.of_same (fun h member => ?_) fun h member => ?_, named, fun h member =>
    ?_, fun h member => ?_⟩
  · obtain ⟨a, tells⟩ := proper.spelled h (List.mem_append_left _ member)
    rw [(spares h (by simp [member]) a tells).1, tells.1]
  · have known : ∃ a, s.Tells h a := by
      rcases List.mem_append.mp member with tag | id
      · exact proper.spelled h (List.mem_append_right _ tag)
      · obtain ⟨a, tells, _⟩ := proper.defined h id
        exact ⟨a, tells⟩
    obtain ⟨a, tells⟩ := known
    have inside : h ∈ rule.modifiers ++ rule.tags ++ rule.ids := by
      rw [List.append_assoc]
      exact List.mem_append_right _ member
    rw [(spares h inside a tells).text, tells.text]
  · obtain ⟨a, tells⟩ := proper.spelled h member
    exact ⟨a, spares h (List.mem_append_left _ member) a tells⟩
  · obtain ⟨a, tells, names⟩ := proper.defined h member
    exact ⟨a, spares h (List.mem_append_right _ member) a tells, names⟩

/-- A rule stays as it is while its words do. -/
theorem of_spared (proper : rule.Proper s) (spares : Spares s after rule.words) : rule.Proper after := by
  obtain ⟨a, tells, names⟩ := proper.named
  exact proper.renamed (spares.fewer (List.subset_cons_self _ _)) ⟨a, spares _ List.mem_cons_self a tells, names⟩

/-- A rule is the same under other handles when its words are told there. -/
theorem mapHandles (proper : rule.Proper s) {f : Handle → Handle}
    (told : ∀ h ∈ rule.words, ∀ a, s.Tells h a → after.Tells (f h) a) : (rule.mapHandles f).Proper after := by
  have spelled : ∀ h ∈ rule.modifiers ++ rule.tags, ∃ a, s.Tells h a ∧ after.Tells (f h) a := fun h member => by
    obtain ⟨a, tells⟩ := proper.spelled h member
    exact ⟨a, tells, told h (List.mem_cons_of_mem _ (List.mem_append_left _ member)) a tells⟩
  have defined : ∀ h ∈ rule.ids, ∃ a, s.Tells h a ∧ a.Names .stringDefinition ∧ after.Tells (f h) a :=
    fun h member => by
    obtain ⟨a, tells, names⟩ := proper.defined h member
    exact ⟨a, tells, names, told h (List.mem_cons_of_mem _ (List.mem_append_right _ member)) a tells⟩
  have ids : (rule.mapHandles f).ids = rule.ids.map f := by
    simp only [Rule.ids, Rule.mapHandles, NameTrie.values_mapValues, List.map_map]
    rfl
  constructor
  · constructor
    · have same : (rule.modifiers.map f).map (fun h => (after.get? h).map (·.kind)) =
          rule.modifiers.map fun h => (s.get? h).map (·.kind) := by
        rw [List.map_map]
        refine List.map_congr_left fun h member => ?_
        obtain ⟨a, tells, told⟩ := spelled h (List.mem_append_left _ member)
        simp [tells.1, told.1]
      exact same ▸ proper.modifiers
    · have same : (rule.mapHandles f).tagTexts after = rule.tagTexts s := by
        rw [Rule.tagTexts, Rule.tagTexts, Rule.mapHandles, List.map_map]
        refine List.map_congr_left fun h member => ?_
        obtain ⟨a, tells, told⟩ := spelled h (List.mem_append_right _ member)
        exact told.text.trans tells.text.symm
      exact same ▸ proper.tags
    · simpa [Rule.mapHandles] using proper.colon
    · simpa [Rule.mapHandles] using proper.metas
    · simpa [Rule.mapHandles, NameTrie.values_mapValues] using proper.strings
    · exact proper.indexed.mapValues _
    · exact proper.distinct.mapValues _
    · intro string member
      obtain ⟨item, listed, rfl⟩ := List.mem_map.mp (NameTrie.toList_mapValues _ rule.strings ▸ member)
      obtain ⟨a, tells, _, told⟩ := defined item.2.id (List.mem_map.mpr ⟨item.2, List.mem_map_of_mem listed, rfl⟩)
      exact (told.text.trans tells.text.symm).trans (proper.keyed item listed)
  · obtain ⟨a, tells, names⟩ := proper.named
    exact ⟨a, told _ List.mem_cons_self a tells, names⟩
  · intro h member
    obtain ⟨old, word, rfl⟩ :=
      List.mem_map.mp (show h ∈ (rule.modifiers ++ rule.tags).map f by simpa [Rule.mapHandles] using member)
    obtain ⟨a, _, told⟩ := spelled old word
    exact ⟨a, told⟩
  · intro h member
    obtain ⟨old, word, rfl⟩ := List.mem_map.mp (ids ▸ member)
    obtain ⟨a, _, names, told⟩ := defined old word
    exact ⟨a, told, names⟩

theorem tagTexts_spared (proper : rule.Proper s) (spares : Spares s after rule.words) :
    rule.tagTexts after = rule.tagTexts s := by
  refine List.map_congr_left fun h member => ?_
  obtain ⟨a, tells⟩ := proper.spelled h (List.mem_append_right _ member)
  rw [(spares h (by simp [words, member]) a tells).text, tells.text]

/-- The text of the name stays while the name does. -/
theorem nameText_spared (proper : rule.Proper s) (spares : Spares s after [rule.name]) :
    rule.nameText after = rule.nameText s := by
  obtain ⟨a, tells, text⟩ := proper.named
  exact (spares _ (by simp) a tells).text.trans tells.text.symm

/-! ### Changed parts -/

theorem withModifiers (proper : rule.Proper s) (modifiers : List Handle)
    (kinds : (modifiers.map fun h => (s.get? h).map (·.kind)).Nodup) (told : ∀ h ∈ modifiers, ∃ a, s.Tells h a) :
    ({ rule with modifiers } : Rule).Proper s where
  toFormed := { proper.toFormed with modifiers := kinds }
  named := proper.named
  spelled h member := (List.mem_append.mp member).elim (told h)
    fun tag => proper.spelled h (List.mem_append_right _ tag)
  defined := proper.defined

theorem withTags {tags : List Handle} (proper : rule.Proper s) (tagColon : Option Handle)
    (texts : (tags.map s.text).Nodup) (colon : tagColon.isSome ↔ tags ≠ [])
    (told : ∀ h ∈ tags, ∃ a, s.Tells h a) : ({ rule with tagColon, tags } : Rule).Proper s where
  toFormed := { proper.toFormed with tags := texts, colon }
  named := proper.named
  spelled h member := (List.mem_append.mp member).elim (fun modifier =>
    proper.spelled h (List.mem_append_left _ modifier)) (told h)
  defined := proper.defined

theorem withMetas (proper : rule.Proper s) (metaSection : Option Section) (metas : List MetaEntry)
    (header : metas ≠ [] → metaSection.isSome) : ({ rule with metaSection, metas } : Rule).Proper s where
  toFormed := { proper.toFormed with metas := header }
  named := proper.named
  spelled := proper.spelled
  defined := proper.defined

theorem withStrings {strings : NameTrie StringDefinition} (proper : rule.Proper s) (stringSection : Option Section)
    (header : stringSection.isSome ↔ strings.values ≠ []) (indexed : strings.Indexed) (distinct : strings.Distinct "$")
    (told : ∀ string ∈ strings.toList, ∃ a, s.Tells string.2.id a ∧ a.Names .stringDefinition ∧
    a.literal.text = string.1) : ({ rule with stringSection, strings } : Rule).Proper s where
  toFormed := { proper.toFormed with
    strings := header
    indexed
    distinct
    keyed string member := by
      obtain ⟨a, tells, names, text⟩ := told string member
      rw [tells.text, names.kind]
      exact text }
  named := proper.named
  spelled := proper.spelled
  defined h member := by
    obtain ⟨string, listed, rfl⟩ := List.mem_map.mp member
    obtain ⟨item, inside, rfl⟩ := List.mem_map.mp listed
    obtain ⟨a, tells, names, _⟩ := told item inside
    exact ⟨a, tells, names⟩

/-- A string is kept under the literal of its name. -/
theorem string (proper : rule.Proper s) {item : String × StringDefinition} (listed : item ∈ rule.strings.toList) :
    ∃ a, s.Tells item.2.id a ∧ a.Names .stringDefinition ∧ a.literal.text = item.1 := by
  have inside : item.2.id ∈ rule.ids := List.mem_map.mpr ⟨item.2, List.mem_map_of_mem listed, rfl⟩
  obtain ⟨a, tells, names⟩ := proper.defined _ inside
  refine ⟨a, tells, names, ?_⟩
  rw [← proper.keyed item listed, tells.text, names.kind]
  rfl

theorem withCondition (proper : rule.Proper s) (condition : Expr) : ({ rule with condition } : Rule).Proper s where
  toFormed := { proper.toFormed with }
  named := proper.named
  spelled := proper.spelled
  defined := proper.defined

end Proper

end Rule

end YaraRules
