import YaraRules.Proofs.ReadInclusions
import YaraRules.Proofs.RuleForms

/-! Files that were read are in good form. The parser compares modifiers, tags and names of
strings with those before them, and names of rules and modules with those that it knows. -/

namespace YaraRules.Grammar

variable {l : Ledger} {roles : List Role} {s s' : State} {pieces : List Piece}

/-! ### Rules -/

theorem ruleTail_formed (head : RuleHead) (condition : Expr) {strings : NameTrie StringDefinition} :
    Ensures (fun s => s.strings = strings) (ruleTail head condition) fun rule _ => rule.name = head.name ∧
    rule.modifiers = head.modifiers ∧
      rule.tagColon = head.tagColon ∧ rule.tags = head.tags ∧ rule.metaSection = head.metaSection ∧
      rule.metas = head.metas ∧
      rule.stringSection = head.stringSection ∧ rule.strings = strings := by
  refine .bind (m := fun _ s => s.strings = strings) (fun s h s' done same => ?_) fun closing => ?_
  · obtain ⟨_, _, ⟨⟩, run⟩ := bind_done done
    split_ifs at run
    · obtain ⟨_, _, rfl⟩ := advance_done run
      exact same
    · exact absurd run (never_unexpected _ _ _ _)
  · refine .bind (m := fun _ s => s.strings = strings) (.modify fun _ same => same) fun _ => ?_
    refine .skip (fun _ => rfl) fun start => .skip (fun _ => rfl) fun stop => .skip (fun _ => rfl) fun text => ?_
    rintro s rule s' ⟨⟩ rfl
    exact ⟨rfl, rfl, rfl, rfl, rfl, rfl, rfl, rfl⟩

theorem Linking.unread {others : List Handle} (link : Linking l roles others s) {string : StringDefinition}
    (known : string ∈ l.strings.values) : string.id ∉ s.source.rest :=
  fun later => (link.placed _ (link.known string known)).1 (List.mem_append_right _ later)

private theorem rule_formed {rule : Rule} (link : Linking l roles [] s) (unnamed : s.Unnamed)
    (done : Grammar.rule s = .ok (rule, s')) : rule.Formed s'.source.tokens ∧ rule.Sigiled ∧
    rule.Texted s'.source.tokens := by
  obtain ⟨head, s₁, began, run⟩ := bind_done done
  obtain ⟨condition, s₂, read, run⟩ := bind_done run
  obtain ⟨formed, shelved⟩ := ruleHead_shelved s head s₁ began ⟨unnamed, link⟩
  obtain ⟨strings, link₁⟩ := shelved.stocked
  have link₂ := condition_links.gives s₁ condition s₂ read link₁
  obtain ⟨name, modifiers, colon, tags, header, entries, section_, held⟩ :=
    ruleTail_formed head condition s₂ rule s' run link₂.strings
  have onward : Onward [] [] s₁ s' :=
    (condition_calm.forget.onward s₁ condition s₂ read).trans
      ((ruleTail_calm (fun _ _ => List.nil_subset _) condition).onward s₂ rule s' run)
  have kept : rule.strings = s₁.strings := held.trans link₁.strings.symm
  refine ⟨?_, fun string member => shelved.keyed.sigil string (kept ▸ member), fun h member => ?_⟩
  rotate_left
  · have texted : Texted h s₁ := by
      rcases List.mem_cons.mp member with rfl | id
      · exact name ▸ formed.name
      · obtain ⟨string, listed, rfl⟩ := List.mem_map.mp id
        exact shelved.keyed.texts string (kept ▸ listed)
    exact (Seen.lasting _ _ onward texted).2
  have tagged := Differ.lasting _ _ onward formed.tags
  exact {
    modifiers := modifiers ▸ (Differ.lasting _ _ onward formed.modifiers).distinct
    tags := by
      rw [Rule.tagTexts, tags]
      exact tagged.texts
    colon := colon ▸ tags ▸ formed.colon
    metas := header ▸ entries ▸ formed.metas
    strings := section_ ▸ kept ▸ formed.strings
    indexed := kept ▸ shelved.keyed.indexed
    distinct := kept ▸ shelved.keyed.distinct
    keyed := fun string member => by
      rw [kept] at member
      have unread := link₁.unread (link₁.strings ▸ List.mem_map_of_mem member)
      exact (link₁.text_onward onward unread).trans (shelved.keyed.keyed string member) }

/-! ### Rules of a file -/

theorem Forth.texted {rule : Rule} (forth : Forth s s') (read : ∀ h ∈ rule.row, s.HasRead h)
    (texted : rule.Texted s.source.tokens) : rule.Texted s'.source.tokens := fun h member => by
  rw [forth.same h (read h (rule.definitions_row member))]
  exact texted h member

theorem Forth.formed {rule : Rule} (forth : Forth s s') (read : ∀ h ∈ rule.row, s.HasRead h)
    (formed : rule.Formed s.source.tokens) : rule.Formed s'.source.tokens := by
  refine formed.of_same (fun h member => ?_) fun h member => ?_
  · rw [forth.same h (read h ?_)]
    simp [Rule.row, member]
  · refine forth.text h (read h ?_)
    rcases List.mem_append.mp member with tag | id
    · simp [Rule.row, Rule.tagRow, tag]
    · obtain ⟨string, listed, rfl⟩ := List.mem_map.mp id
      exact sight_tokens rule (.inr (.inr ⟨string, listed, rfl⟩))

/-- What is known of the tokens that are still to be read, in their order. -/
def State.Ahead (waits : List (Option Token) → Prop) (s : State) : Prop :=
  waits (s.source.rest.map s.source.tokens.get?)

section

variable (waits : List (Option Token) → Prop) (suffix : ∀ {front back}, waits (front ++ back) → waits back)

include suffix

/-- It is known of fewer tokens while the source is read on. -/
theorem State.Ahead.onward {given : List Handle} (ahead : s.Ahead waits) (link : Linking l roles [] s)
    (onward : Onward [] given s s') : s'.Ahead waits := by
  obtain ⟨front, split⟩ := onward.row_waiting link.unread_nodup
  rw [State.Ahead, split] at ahead
  exact suffix ahead

/-- It is known of what is still to be read behind the items of a course. -/
theorem Course.ahead (course : Course s pieces s') : ∀ {l}, Poised l s → s.Ahead waits → s'.Ahead waits := by
  induction course with
  | done s => exact fun _ => id
  | @imported s between s' pieces run rest ih =>
    intro l poised ahead
    obtain ⟨_, link⟩ := poised.accounted
    obtain ⟨t, _, _, _, onward, rfl, _⟩ := importDirective_onward run
    have waiting : t.Ahead waits := ahead.onward waits suffix link onward
    exact ih (poised.imported run).2 waiting
  | @ruled s between s' pieces found run rest ih =>
    intro l poised ahead
    obtain ⟨_, link⟩ := poised.accounted
    have waiting : between.Ahead waits := ahead.onward waits suffix link (rule_calm.onward s found between run link)
    exact ih (poised.ruled run).2 waiting
  | @skipped s between s' pieces d place run located shut again rest ih =>
    intro l poised ahead
    obtain ⟨_, link⟩ := poised.accounted
    exact ih (poised.directive run).2 (ahead.onward waits suffix link (directive_calm.onward s d between run))
  | @opened s between inner s' below pieces d place content source run opens inside rest ihInside ihRest =>
    intro l poised ahead
    obtain ⟨_, link⟩ := poised.accounted
    have opening := poised.opening run opens
    obtain ⟨within, poisedInner⟩ := inside.forth opening.inner
    have waiting := ahead.onward waits suffix link (directive_calm.onward s d between run)
    refine ihRest (opening.rejoin inside within poisedInner).2.2 ?_
    rwa [State.Ahead, State.rest_rejoin, List.map_congr_left (opening.unread poisedInner)]

/-- It is known wherever reading comes to, if it is known of sources that were not read yet. -/
theorem Reaches.ahead {chain past : List FileTree.Place} (reaches : Reaches s chain past s')
    (lexed : ∀ {id path content source}, sourceOf id path content = .ok source →
    waits (source.rest.map source.tokens.get?)) : ∀ {l}, Poised l s → s.Ahead waits → s'.Ahead waits ∧
    ∃ l', Poised l' s' := by
  induction reaches with
  | along course => exact fun poised ahead => ⟨course.ahead waits suffix poised ahead, _, (course.forth poised).2⟩
  | inside course found opens within ih =>
    intro l poised ahead
    exact ih ((course.forth poised).2.opening found opens).inner (lexed opens.lexed)

end

/-- Each rule of a course was read somewhere on the way, and what was read with it keeps its text. -/
theorem Course.point (course : Course s pieces s') :
    ∀ {l}, Poised l s → ∀ rule ∈ rulesOf pieces, ∃ chain past before between, Reaches s chain past before ∧
    Grammar.rule before = .ok (rule, between) ∧ Forth between s' ∧ ∀ h ∈ rule.row, between.HasRead h := by
  induction course with
  | done s => exact fun _ => nofun
  | @imported s between s' pieces run rest ih =>
    intro l poised rule member
    have none (more : List Import) : rulesOf (more.map .imported) = [] := by
      simp [rulesOf, List.filterMap_map, Function.comp_def, Piece.rule?]
    rw [rulesOf_append, none, List.nil_append] at member
    obtain ⟨chain, past, before, after, reaches, found⟩ := ih (poised.imported run).2 rule member
    exact ⟨_, _, before, after, (Course.imported run (.done _)).reaches reaches, found⟩
  | @ruled s between s' pieces first run rest ih =>
    intro l poised rule member
    obtain ⟨scene, front, place⟩ := poised.place
    obtain ⟨_, poised'⟩ := poised.ruled run
    rcases List.mem_cons.mp member with rfl | later
    · have forth := (rest.forth poised').1
      refine ⟨_, _, s, between, .along (.done s), run, ⟨forth.settings, forth.read, forth.same, forth.text⟩,
        fun h inside => ?_⟩
      exact (rule_reads s rule between run place).2.hasRead (List.mem_append_right _ inside)
    · obtain ⟨chain, past, before, after, reaches, found⟩ := ih poised' rule later
      exact ⟨_, _, before, after, (Course.ruled run (.done _)).reaches reaches, found⟩
  | @skipped s between s' pieces d place run located shut again rest ih =>
    intro l poised rule member
    obtain ⟨chain, past, before, after, reaches, found⟩ := ih (poised.directive run).2 rule member
    exact ⟨_, _, before, after, (Course.skipped run located shut again (.done _)).reaches reaches, found⟩
  | @opened s between inner s' below pieces d place content source run opens inside rest ihInside ihRest =>
    intro l poised rule member
    have opening := poised.opening run opens
    obtain ⟨within, poisedInner⟩ := inside.forth opening.inner
    obtain ⟨_, back, poised'⟩ := opening.rejoin inside within poisedInner
    rcases List.mem_append.mp (show rule ∈ rulesOf below ++ rulesOf pieces from rulesOf_append .. ▸ member) with here
      | later
    · obtain ⟨chain, past, before, after, reaches, found, forth, read⟩ := ihInside opening.inner rule here
      exact ⟨_, _, before, after, .inside (.done s) run opens reaches, found,
        forth.trans (back.trans (rest.forth poised').1), read⟩
    · obtain ⟨chain, past, before, after, reaches, found⟩ := ihRest poised' rule later
      exact ⟨_, _, before, after, (Course.opened run opens inside (.done _)).reaches reaches, found⟩

section

variable (waits : List (Option Token) → Prop) (suffix : ∀ {front back}, waits (front ++ back) → waits back)

include suffix

variable (holds : Rule → TokenStream → Prop)

/-- What holds of a rule that was just read holds of all rules of a course, if reading on does not change it. -/
theorem Course.each (course : Course s pieces s')
    (lexed : ∀ {id path content source}, sourceOf id path content = .ok source →
    waits (source.rest.map source.tokens.get?))
    (found : ∀ {l roles s rule s'}, Linking l roles [] s → s.Unnamed → s.Ahead waits → Grammar.rule s = .ok (rule, s') →
      holds rule s'.source.tokens)
    (lasts : ∀ {rule s s'}, Forth s s' → (∀ h ∈ rule.row, s.HasRead h) → holds rule s.source.tokens →
    holds rule s'.source.tokens)
    (poised : Poised l s) (ahead : s.Ahead waits) : ∀ rule ∈ rulesOf pieces, holds rule s'.source.tokens := by
  intro rule member
  obtain ⟨chain, past, before, between, reaches, run, forth, read⟩ := course.point poised rule member
  obtain ⟨ahead', l', poised'⟩ := reaches.ahead waits suffix lexed poised ahead
  obtain ⟨_, link⟩ := poised'.accounted
  exact lasts forth read (found link poised'.unnamed ahead' run)

theorem readSource_each_lexed {settings : Settings} {tree : FileTree} {source : Source} {id : ChainId}
    {opened : List FileTree.Place}
    {file : RuleFile} (fresh : source.Fresh id) (untouched : Untouched source.tokens)
    (first : waits (source.rest.map source.tokens.get?))
    (done : readSource settings tree source (id + 1) opened = .ok file)
    (lexed : ∀ {id path content source}, sourceOf id path content = .ok source →
    waits (source.rest.map source.tokens.get?))
    (found : ∀ {l roles s rule s'}, Linking l roles [] s → s.Unnamed → s.Ahead waits → Grammar.rule s = .ok (rule, s') →
      holds rule s'.source.tokens)
    (lasts : ∀ {rule s s'}, Forth s s' → (∀ h ∈ rule.row, s.HasRead h) → holds rule s.source.tokens →
    holds rule s'.source.tokens) :
    ∀ rule ∈ file.rules, holds rule file.tokens := by
  obtain ⟨pieces, last, course, rfl⟩ := readSource_course done
  obtain ⟨_, _, final⟩ := (course.arrayed fresh.first).place
  have rules : last.rules = rulesOf pieces := final.rules
  exact fun rule member => course.each waits suffix holds lexed found lasts (fresh.poised untouched) first rule
    (rules ▸ member)

end

/-- What holds of a rule that was just read holds of all rules of a file, if reading on does not change it. -/
theorem readSource_each (holds : Rule → TokenStream → Prop) {settings : Settings} {tree : FileTree} {source : Source}
    {id : ChainId} {opened : List FileTree.Place} {file : RuleFile} (fresh : source.Fresh id)
    (untouched : Untouched source.tokens) (done : readSource settings tree source (id + 1) opened = .ok file)
    (found : ∀ {l roles s rule s'}, Linking l roles [] s → s.Unnamed → Grammar.rule s = .ok (rule, s') →
    holds rule s'.source.tokens) (lasts : ∀ {rule s s'}, Forth s s' → (∀ h ∈ rule.row, s.HasRead h) →
    holds rule s.source.tokens → holds rule s'.source.tokens) : ∀ rule ∈ file.rules, holds rule file.tokens :=
  readSource_each_lexed (fun _ => True) (fun _ => trivial) holds fresh untouched trivial done (fun _ => trivial)
    (fun link unnamed _ => found link unnamed) lasts

/-! ### Imports -/

/-- The modules that are known have different names. -/
def Apart (s : State) : Prop := (s.imports.map (·.moduleName)).Nodup

private theorem importDirective_apart : Ensures Apart importDirective fun _ => Apart := by
  have keep {α : Type} {step : Parse α} {given : α → List Handle} (calm : Calm [] step given) : Ensures Apart step
      fun _ => Apart :=
    fun s a s' done apart => (congrArg (List.map _) (calm.onward s a s' done).imports ▸ apart : (List.map _ _).Nodup)
  refine .bind (keep (expect_calm _)) fun keyword => .bind (keep (expect_calm _)) fun name => ?_
  refine .skip (fun _ => rfl) fun text => .bind .get fun st => ?_
  dsimp only
  split
  next imported found =>
    refine .modify ?_
    rintro s ⟨rfl, apart⟩
    dsimp only [Apart]
    split_ifs with known
    · exact apart
    · rw [List.map_append]
      refine List.nodup_append.mpr ⟨apart, List.pairwise_singleton _ _, fun _ old _ new same => known ?_⟩
      obtain ⟨i, member, rfl⟩ := List.mem_map.mp old
      exact List.any_eq_true.mpr ⟨i, member, by simpa [Import.moduleName] using same.trans (List.mem_singleton.mp new)⟩
  next => exact .never (never_fail _ _)

theorem Course.apart (course : Course s pieces s') : ∀ {l}, Poised l s → Apart s → Apart s' := by
  induction course with
  | done s => exact fun _ => id
  | imported run rest ih => exact fun poised apart => ih (poised.imported run).2 (importDirective_apart _ _ _ run apart)
  | @ruled s between s' pieces found run rest ih =>
    intro l poised apart
    obtain ⟨read, link⟩ := poised.accounted
    have same : between.imports = s.imports := (rule_calm.onward s found between run link).imports
    exact ih (poised.ruled run).2 (same ▸ apart : (between.imports.map _).Nodup)
  | skipped run located shut again rest ih =>
    intro l poised apart
    exact ih (poised.directive run).2 ((directive_keeps poised run).2 ▸ apart : (List.map _ _).Nodup)
  | @opened s between inner s' below pieces d place content source run opens inside rest ihInside ihRest =>
    intro l poised apart
    have opening := poised.opening run opens
    have before : Apart (between.enter source place) :=
      ((directive_keeps poised run).2 ▸ apart : (between.imports.map _).Nodup)
    obtain ⟨within, poisedInner⟩ := inside.forth opening.inner
    exact ihRest (opening.rejoin inside within poisedInner).2.2 (ihInside opening.inner before)

/-! ### Files -/

private theorem readSource_formed {settings : Settings} {tree : FileTree} {source : Source} {id : ChainId}
    {opened : List FileTree.Place} {file : RuleFile} (fresh : source.Fresh id) (untouched : Untouched source.tokens)
    (done : readSource settings tree source (id + 1) opened = .ok file) : (file.imports.map (·.moduleName)).Nodup ∧
    ∀ rule ∈ file.rules, rule.Formed file.tokens ∧ rule.Sigiled ∧ rule.Texted file.tokens := by
  have rules := readSource_each (fun rule tokens =>
    rule.Formed tokens ∧ rule.Sigiled ∧ rule.Texted tokens) fresh untouched done rule_formed
    fun forth read known => ⟨forth.formed read known.1, known.2.1, forth.texted read known.2.2⟩
  obtain ⟨pieces, last, course, rfl⟩ := readSource_course done
  have poised : Poised ⟨id, [], [], [], {}⟩ (.first settings tree source (id + 1) opened) := fresh.poised untouched
  exact ⟨course.apart poised List.nodup_nil, rules⟩

end YaraRules.Grammar

namespace YaraRules.RuleFile.Read

variable {file : RuleFile}

theorem sigiled (read : file.Read) : ∀ rule ∈ file.rules, rule.Sigiled := by
  obtain ⟨_, _, _, _, _, fresh, untouched, done⟩ := read.source
  exact fun rule member => ((Grammar.readSource_formed fresh untouched done).2 rule member).2.1

theorem texted (read : file.Read) : ∀ rule ∈ file.rules, rule.Texted file.tokens := by
  obtain ⟨_, _, _, _, _, fresh, untouched, done⟩ := read.source
  exact fun rule member => ((Grammar.readSource_formed fresh untouched done).2 rule member).2.2

theorem formed (read : file.Read) : file.Formed := by
  obtain ⟨_, _, _, _, _, fresh, untouched, done⟩ := read.source
  obtain ⟨imports, rules⟩ := Grammar.readSource_formed fresh untouched done
  refine ⟨?_, imports, fun rule member => (rules rule member).1⟩
  simpa [names, Function.comp_def] using read.linked.unique

end YaraRules.RuleFile.Read
