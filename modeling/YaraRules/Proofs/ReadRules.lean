import YaraRules.Proofs.ReadConditions

/-! What rules read. The strings of a rule are kept aside until its end; they stand in the
order in which they were read, behind the keyword of their section. -/

namespace YaraRules.Grammar

variable {scene : Scene}

/-! ### Modifiers, tags and metadata -/

private theorem ruleModifiers_reads : ∀ bound before, Reads scene (before.map (·.2)) (ruleModifiers bound before) id
  | 0, _ => .pure (.refl _)
  | bound + 1, before => by
    refine .skip peek_reads fun next => ?_
    cases next with
    | none => exact .pure (.refl _)
    | some kind =>
      refine .ite (fun _ => ?_) fun _ => .pure (.refl _)
      refine .bind advance_reads fun token => .ite (fun _ => ?_) fun _ => ?_
      · exact .skip (textOf_reads token) fun _ => .never (.bind (never_fail _ _) _)
      · simpa using ruleModifiers_reads bound (before ++ [(kind, token)])

private theorem tagsAfter_reads : ∀ bound before, Reads scene before (tagsAfter bound before) id
  | 0, _ => .pure (.refl _)
  | bound + 1, before => by
    refine .skip peek_reads fun next => .ite (fun _ => ?_) fun _ => .pure (.refl _)
    refine .bind advance_reads fun token => .skip (refine_reads (by decide) token) fun _ => .skip tokens_reads
      fun tokens => ?_
    exact .guard (never_fail _ _) (tagsAfter_reads bound (before ++ [token]))

private theorem tags_reads : Reads scene [] tags fun (colon, tags) => colon.toList ++ tags := by
  refine .bind (accept_reads _) fun colon => ?_
  cases colon with
  | none => exact .pure (.refl _)
  | some colon =>
    refine .skip remaining_reads fun bound => .bind (tagsAfter_reads bound []) fun tags =>
      .guard (never_unexpected _) ?_
    exact .pure (.refl _)

private theorem eraseOne_reads {α : Type} (h : Handle) {before : List Handle} {next : Parse α} {row : α → List Handle}
    (rest : Reads scene before next row) : Reads scene ([h] ++ before) (do
      match (← tokens).eraseOne h with
      | .ok tokens => modifyTokens fun _ => tokens
      | .error _ => pure ()
      next) row := by
  intro s a s' done front place
  have run : (match s.source.tokens.eraseOne h with
    | .ok tokens => do modifyTokens fun _ => tokens; next
    | .error _ => next : Parse α) s = .ok (a, s') := done
  cases erased : s.source.tokens.eraseOne h with
  | error e =>
    simp only [erased] at run
    exact rest s a s' run front ((reading scene).shrink (List.sublist_append_right _ _) place)
  | ok tokens =>
    simp only [erased] at run
    have begins : [h].head? = some h := rfl
    have rewrites := place.tidy.erase begins rfl (.inl rfl) erased
    obtain ⟨_, id, ids, _⟩ := place.tidy.erase_spots erased
    exact rest _ a s' run front { place with
      tidy := rewrites.tidy
      id := id.trans place.id
      listed := rewrites.code front (before ++ s.source.rest) (by simpa using place.listed)
      chain := fun k member => place.chain k (by simpa using .inr (List.mem_append.mp member))
      ids := fun id member => place.ids id (ids member) }

private theorem negativeNumber_reads : Reads scene [] negativeNumber fun h => [h] := by
  refine .bind advance_reads fun minus => .bind advance_reads fun value => .skip tokens_reads fun tokens => ?_
  dsimp only
  split
  · exact .never (never_fail _ _)
  · exact .skip (setLiteral_reads value _) fun _ => eraseOne_reads minus (.pure (.refl [value]))

private theorem metaValue_reads : Reads scene [] metaValue fun h => [h] := by
  refine .bind peek_reads fun next => ?_
  split
  · exact .bind advance_reads fun token => .skip (checkEscapes_reads token) fun _ => .pure (.refl _)
  · exact advance_reads
  · exact advance_reads
  · refine .bind (peekAt_reads 1) fun _ => .ite (fun _ => negativeNumber_reads) fun _ => .never (never_unexpected _)
  · exact .never (never_unexpected _)

private theorem metaEntry_reads : Reads scene [] metaEntry MetaEntry.handles := by
  refine .bind (expect_reads _) fun key => .skip (refine_reads (by decide) key) fun _ => ?_
  exact .bind (expect_reads _) fun assign => .bind metaValue_reads fun value => .pure (.refl _)

private theorem metaSection_reads : Reads scene [] metaSection fun (header, metas) =>
    header.handles ++ metas.flatMap MetaEntry.handles := by
  refine .bind (expect_reads _) fun keyword => .bind (expect_reads _) fun colon => .skip remaining_reads fun bound => ?_
  exact .bind (itemsWhile_reads metaEntry_reads bound) fun metas => .pure (.refl _)

private theorem optionalMetas_reads : Reads scene [] metaSection? fun (header, metas) =>
    headerRow header ++ metas.flatMap MetaEntry.handles :=
  .skip peek_reads fun _ => .ite (fun _ => .bind metaSection_reads fun _ => .pure (.refl _)) fun _ => .pure (.refl _)

/-! ### Strings -/

/-- Strings were read behind other tokens and are kept in order. -/
def Filing (scene : Scene) (done before : List Handle) (s : State) : Prop :=
  ∃ strings : NameTrie StringDefinition, strings.Neat ∧
    InPlace { scene with strings } done (before ++ stringRows strings) s

variable {done before : List Handle}

theorem Filing.add {strings : NameTrie StringDefinition} (neat : strings.Neat) {id : String} {string : StringDefinition}
    {s : State} (place : InPlace { scene with strings } done (before ++ stringRows strings ++ string.row) s) :
    Filing scene done before { s with strings := s.strings.insertAgain id string } := by
  obtain rfl : s.strings = strings := place.strings
  refine ⟨s.strings.insertAgain id string, neat.insertAgain id string,
    { place with strings := rfl, listed := ?_, chain := ?_ }⟩
  · simpa [stringRows, NameTrie.values_insertAgain] using place.listed
  · simpa [stringRows, NameTrie.values_insertAgain] using place.chain

private theorem addString_files : Ensures (Filing scene done before) addString fun _ => Filing scene done before := by
  refine .each fun strings => .given fun neat => stringDefinition_reads.then fun string =>
    (textOf_reads _).then fun id => ?_
  refine .bind .get fun st => .ite (fun _ => .modify ?_) fun _ => ?_
  · rintro s ⟨rfl, place⟩
    exact .add neat (by simpa using place)
  · unfold NameTrie.insert?
    split
    next strings' found =>
      split_ifs at found
      cases found
      refine .modify ?_
      rintro s ⟨rfl, place⟩
      exact .add neat (by simpa using place)
    next => exact .never (never_fail _ _)

private theorem addStrings_files {starts : TokenKind → Bool} : ∀ bound,
    Ensures (Filing scene done before) (itemsWhile starts addString bound) fun _ => Filing scene done before
  | 0 => .pure fun _ filing => filing
  | bound + 1 => by
    refine .each fun strings => .given fun neat => peek_reads.then fun next => ?_
    refine .consider (Filing scene done before) (fun s place => ⟨strings, neat, by simpa using place⟩) ?_
    refine .ite (fun _ => .bind addString_files fun _ => ?_) fun _ => .pure fun _ filing => filing
    exact .bind (addStrings_files bound) fun _ => .pure fun _ filing => filing

private theorem stringSection_files : Ensures (InPlace { scene with strings := {} } done before) stringSection
    fun header => Filing scene done (before ++ header.handles) := by
  refine (expect_reads _).then fun keyword => (expect_reads _).then fun colon => peek_reads.then fun next => ?_
  refine .guard (never_unexpected _) (remaining_reads.then fun bound => ?_)
  refine .consider _ (fun s place => ?_) (.bind (addStrings_files bound) fun _ => .pure fun _ filing => filing)
  exact ⟨{}, NameTrie.neat_empty, by simpa [stringRows_empty, Section.handles] using place⟩

private theorem optionalStrings_files :
    Ensures (InPlace { scene with strings := {} } done before) stringSection? fun header s =>
      ∃ strings : NameTrie StringDefinition, (strings.Neat ∧ (header = none → strings.values = [])) ∧
        InPlace { scene with strings } done (before ++ (headerRow header ++ stringRows strings)) s := by
  refine peek_reads.then fun _ => .ite (fun _ => ?_) fun _ => ?_
  · refine .bind stringSection_files fun header => .pure ?_
    rintro s ⟨strings, neat, place⟩
    exact ⟨strings, ⟨neat, nofun⟩, by simpa [headerRow] using place⟩
  · refine .pure fun s place => ⟨{}, ⟨NameTrie.neat_empty, fun _ => rfl⟩, ?_⟩
    simpa [headerRow, stringRows_empty] using place

/-! ### Rules -/

/-- Tokens of a rule up to its condition. -/
def RuleHead.row (head : RuleHead) (strings : NameTrie StringDefinition) : List Handle :=
  head.modifiers ++ [head.keyword, head.name] ++ (head.tagColon.toList ++ head.tags) ++ [head.opening] ++
    (headerRow head.metaSection ++ head.metas.flatMap MetaEntry.handles) ++
    (headerRow head.stringSection ++ stringRows strings) ++ head.conditionSection.handles

/-- Strings that go with a rule. -/
def RuleHead.Fits (head : RuleHead) (strings : NameTrie StringDefinition) : Prop :=
  strings.Neat ∧ (head.stringSection = none → strings.values = [])

private theorem clears {β : Type} {row : List Handle} {f : State → State} {next : PUnit → Parse β}
    {last : β → State → Prop}
    (same : ∀ s, (f s).source = s.source ∧ (f s).nextId = s.nextId ∧ (f s).imports = s.imports ∧
      (f s).rules = s.rules ∧ (f s).strings = {})
    (rest : Ensures (InPlace { scene with strings := {} } done row) (next ⟨⟩) last) :
    Ensures (InPlace scene done row) (modify f >>= next) last := by
  refine .bind (.modify fun s place => ?_) fun _ => rest
  obtain ⟨source, nextId, imports, rules, strings⟩ := same s
  exact strings ▸ place.aside source nextId imports rules

private theorem ruleHead_reads : Ensures (InPlace scene done []) ruleHead fun head s =>
    ∃ strings, head.Fits strings ∧ InPlace { scene with strings } done (head.row strings) s := by
  refine remaining_reads.then fun bound => (ruleModifiers_reads bound []).then fun modifiers => ?_
  refine (expect_reads _).then fun keyword => (expect_reads _).then fun name =>
    (refine_reads (by decide) name).then fun _ => ?_
  refine (textOf_reads name).then fun text => get_reads.then fun s => .guard (never_fail _ _) ?_
  refine tags_reads.then fun (tagColon, tags) => (expect_reads _).then fun opening => ?_
  refine (refine_reads (by decide) opening).then fun _ => ?_
  refine clears (fun _ => ⟨rfl, rfl, rfl, rfl, rfl⟩) ?_
  refine optionalMetas_reads.then fun (metaSection, metas) => .bind optionalStrings_files fun stringSection => ?_
  refine .each fun strings => .given fun fits => ?_
  refine (expect_reads _).then fun keyword' => (expect_reads _).then fun colon => .pure fun s place =>
    ⟨strings, fits, ?_⟩
  simpa [RuleHead.row, Section.handles] using place

private theorem ruleTail_reads (head : RuleHead) (condition : Expr) {strings : NameTrie StringDefinition}
    (fits : head.Fits strings) :
    Ensures (InPlace { scene with strings } done (head.row strings ++ condition.handles)) (ruleTail head condition)
      fun rule s => rule.Filed ∧ InPlace { scene with strings := {} } done rule.row s := by
  refine (expect_reads _).then fun closing => (refine_reads (by decide) closing).then fun _ => ?_
  refine (locationOf_reads _).then fun start => (locationOf_reads closing).then fun stop =>
    (textOf_reads _).then fun text => ?_
  refine .bind .get fun st => ?_
  refine .consider (fun s => st.strings = strings ∧ InPlace { scene with strings } done _ s)
    (fun s ⟨same, place⟩ => ⟨same ▸ place.strings, place⟩) (.given fun same => ?_)
  refine clears (fun _ => ⟨rfl, rfl, rfl, rfl, rfl⟩) (.pure fun s place => ?_)
  subst same
  refine ⟨⟨fits.1, fits.2⟩, ?_⟩
  simpa [RuleHead.row, Rule.row, Rule.tagRow, Rule.bodyRow, Rule.metaRow, Rule.stringRow, Rule.conditionRow, stringRows]
    using place

/-- A rule is read in the order in which it holds its tokens. -/
theorem rule_reads : Ensures (InPlace scene done []) rule fun rule s =>
    rule.Filed ∧ InPlace { scene with strings := {} } done rule.row s := by
  refine .bind ruleHead_reads fun head => .each fun strings => .given fun fits => ?_
  exact condition_reads.then fun condition => ruleTail_reads head condition fits

end YaraRules.Grammar
