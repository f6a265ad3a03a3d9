import YaraRules.Proofs.Outcomes
import YaraRules.Proofs.ReadFileNames
import YaraRules.Proofs.ReadRuleScopes

/-! What conditions see in files. Reading goes forth: what was read keeps its text, in the file
and in those that it includes, so each condition still means what it meant when it was
read. A condition of an included file sees what came before the directive as well. -/

namespace YaraRules.Grammar

open TokenStream (Joined)

/-! ### Going forth -/

/-- The token is in the source or in a file that it includes, and it was read. -/
def State.HasRead (s : State) (h : Handle) : Prop := h.chain ∈ s.source.tokens.ids ∧ h ∉ s.source.rest

/-- What was read stays as it is and keeps its text. -/
structure Forth (s s' : State) : Prop where
  settings : s'.settings = s.settings
  read : ∀ h, s.HasRead h → s'.HasRead h
  same : ∀ h, s.HasRead h → s'.source.tokens.get? h = s.source.tokens.get? h
  text : ∀ h, s.HasRead h → s'.source.tokens.text h = s.source.tokens.text h

theorem Forth.refl (s : State) : Forth s s := ⟨rfl, fun _ => id, fun _ _ => rfl, fun _ _ => rfl⟩

theorem Forth.trans {s between s' : State} (first : Forth s between) (second : Forth between s') : Forth s s' where
  settings := second.settings.trans first.settings
  read h known := second.read h (first.read h known)
  same h known := (second.same h (first.read h known)).trans (first.same h known)
  text h known := (second.text h (first.read h known)).trans (first.text h known)

variable {l : Ledger} {s between inner s' : State} {pieces below : List Piece} {d : Directive}
  {place : FileTree.Place} {content : Bytes} {source : Source}

theorem Onward.imports {free given : List Handle} (onward : Onward free given s s') : s'.imports = s.imports :=
  congrArg Surroundings.imports onward.around

theorem Onward.forth {given : List Handle} {roles : List Role} {spare : List Handle} (onward : Onward [] given s s')
    (link : Linking l roles spare s) : Forth s s' where
  settings := congrArg Surroundings.settings onward.around
  read h known := by
    obtain ⟨taken, rest, _⟩ := onward.read
    refine ⟨(onward.settled.shaped link.sound).2.1.symm ▸ known.1, fun later => known.2 ?_⟩
    exact rest ▸ List.mem_append_right _ later
  same _ known := (onward.get?_read known.2).2
  text _ known := link.text_onward onward known.2

/-! ### Imports -/

private theorem load_named {pool : ModulePool} {name : String} {features : Features} {found : Module}
    (loaded : (pool.load name features).1 = some found) : found.content.name = found.name := by
  unfold ModulePool.load at loaded
  dsimp only at loaded
  split at loaded
  · split_ifs at loaded
    cases loaded
    rfl
  · cases loaded

/-- An import reads on, and modules are known by their names. -/
theorem importDirective_onward (run : importDirective s = .ok ((), between)) : ∃ t name pool imports, Onward []
    [name] s t ∧ between = { t with pool, imports } ∧ ∀ i ∈ imports, i ∈ s.imports ∨ Import.Named i := by
  obtain ⟨keyword, s₁, first, run⟩ := bind_done run
  obtain ⟨name, s₂, second, run⟩ := bind_done run
  obtain ⟨_, _, looked, run⟩ := bind_done run
  cases looked
  obtain ⟨_, _, got, run⟩ := bind_done run
  cases got
  have onward : Onward [] [name] s s₂ :=
    ((expect_calm .kwImport).onward _ _ _ first).trans ((expect_calm .string).onward _ _ _ second)
  dsimp only at run
  cases loaded : (s₂.pool.load (Text.trimChar '"' (s₂.source.tokens.text name)) s₂.settings.features).1 with
  | none =>
    simp only [loaded] at run
    cases run
  | some found =>
    simp only [loaded] at run
    cases run
    refine ⟨s₂, _, _, _, onward, rfl, fun i member => ?_⟩
    have old (known : i ∈ s₂.imports) : i ∈ s.imports ∨ Import.Named i := .inl (onward.imports ▸ known)
    split_ifs at member
    · exact old member
    · rcases List.mem_append.mp member with known | new
      · exact old known
      · obtain rfl := List.mem_singleton.mp new
        exact .inr (load_named loaded)

/-! ### Between items -/

/-- Items are about to be read. -/
structure Poised (l : Ledger) (s : State) : Prop where
  empty : l.strings = {}
  accounted : Accounted l s
  unnamed : s.Unnamed
  modules : ∀ i ∈ s.imports, Import.Named i
  place : ∃ scene front, InPlace scene front [] s

theorem Source.Fresh.poised {source : Source} {id : ChainId} (fresh : source.Fresh id)
    (untouched : Untouched source.tokens) {settings : Settings} {tree : FileTree} {opened : List FileTree.Place} :
    Poised ⟨id, [], [], [], {}⟩ (.first settings tree source (id + 1) opened) where
  empty := rfl
  accounted := fresh.accounted untouched
  unnamed h member _ stored := (untouched.get? ((fresh.chain h member).trans fresh.named.symm) stored).2
  modules := nofun
  place := ⟨_, _, fresh.first⟩

theorem Poised.imported (poised : Poised l s) (run : importDirective s = .ok ((), between)) :
    Forth s between ∧ Poised l between := by
  obtain ⟨read, link⟩ := poised.accounted
  obtain ⟨scene, front, place⟩ := poised.place
  obtain ⟨_, _, after⟩ := importDirective_reads s () between run place
  have accounted := Accounted.pass (fun _ => importDirective_links) s () between run poised.accounted
  obtain ⟨t, given, pool, imports, onward, rfl, named⟩ := importDirective_onward run
  have forth := onward.forth link
  have unnamed : t.Unnamed := poised.unnamed.onward link.unread_nodup onward
  refine ⟨⟨forth.settings, forth.read, forth.same, forth.text⟩, ?_⟩
  exact {
    empty := poised.empty
    accounted
    unnamed
    modules := fun i member => (named i member).elim (poised.modules i) id
    place := ⟨_, _, after⟩ }

theorem Poised.ruled {found : Rule} (poised : Poised l s) (run : rule s = .ok (found, between)) :
    Forth s { between with rules := between.rules ++ [found] } ∧
    Poised l { between with rules := between.rules ++ [found] } := by
  obtain ⟨read, link⟩ := poised.accounted
  obtain ⟨scene, front, place⟩ := poised.place
  have onward : Onward [] [found.keyword] s between := rule_calm.onward s found between run link
  have passed := (reading _).pass (rule_reads s found between run place).2
  have unnamed : between.Unnamed := poised.unnamed.onward link.unread_nodup onward
  have forth := onward.forth link
  exact ⟨⟨forth.settings, forth.read, forth.same, forth.text⟩, {
    empty := poised.empty
    accounted := poised.accounted.rule run
    unnamed
    modules := fun i member => poised.modules i (onward.imports ▸ member)
    place := ⟨{ scene with strings := {}, rules := scene.rules ++ [found] }, _,
      { passed with rules := congrArg (· ++ [found]) passed.rules }⟩ }⟩

theorem directive_calm : Calm [] directive fun d => [d.keyword, d.token] := by
  refine .bind (expect_calm _) fun keyword => .bind (expect_calm _) fun token =>
    .bind (textOf_calm token) fun text => ?_
  exact .bind get_calm fun s => .pure (by simp)

theorem Poised.directive (poised : Poised l s) (run : Grammar.directive s = .ok (d, between)) :
    Forth s between ∧ Poised l between := by
  obtain ⟨read, link⟩ := poised.accounted
  obtain ⟨scene, front, place⟩ := poised.place
  have onward := directive_calm.onward s d between run
  have after : InPlace scene front [] between :=
    (reading _).shrink (List.nil_sublist _) (directive_reads s d between run place)
  exact ⟨onward.forth link, {
    empty := poised.empty
    accounted := ⟨read, (directive_named s d between run link).fewer (List.nil_sublist _)⟩
    unnamed := poised.unnamed.onward link.unread_nodup onward
    modules := fun i member => poised.modules i (onward.imports ▸ member)
    place := ⟨_, _, after⟩ }⟩

/-! ### Included files -/

private theorem Linking.text_among {roles : List Role} {spare : List Handle} (link : Linking l roles spare s)
    {tokens : TokenStream} (same : ∀ h, h.chain ∈ s.source.tokens.ids → tokens.get? h = s.source.tokens.get? h)
    {h : Handle} (inside : h.chain ∈ s.source.tokens.ids) : tokens.text h = s.source.tokens.text h := by
  refine link.text_same (same h inside) fun role part => same _ ?_
  obtain ⟨_, a, stored, _⟩ := link.placed role part
  exact TokenStream.mem_ids_of_get? stored

/-- What is known before an included file is read. -/
structure Opening (l : Ledger) (s : State) (d : Directive) (place : FileTree.Place) (source : Source) : Prop where
  outer : ∃ read, Linking (l.after read) (rolesOf read) [d.keyword] s
  placed : ∃ scene front, InPlace scene front [d.keyword, d.token] s
  around : Poised l s
  fresh : InPlace ⟨s.nextId, s.nextId + 1, s.imports, s.rules, s.strings⟩ [] [] (s.enter source place)
  inner : Poised ⟨s.nextId, s.ruleNames, s.ruleNames, s.rules, {}⟩ (s.enter source place)

theorem Poised.opening (poised : Poised l s) (run : Grammar.directive s = .ok (d, between))
    (opens : between.Opens d place content source) : Opening l between d place source := by
  obtain ⟨read, link⟩ := poised.accounted
  obtain ⟨scene, front, place⟩ := poised.place
  have outer := directive_named s d between run link
  have around := (poised.directive run).2
  refine ⟨⟨read, outer⟩, ⟨scene, front, directive_reads s d between run place⟩, around, opens.place, {
    empty := rfl
    accounted := .none (outer.enter rfl opens) rfl
    unnamed := fun h member a stored => ((sourceOf_untouched opens.lexed).get? ?_ stored).2
    modules := around.modules
    place := ⟨_, _, opens.place⟩ }⟩
  have fresh := sourceOf_fresh opens.lexed
  exact (fresh.chain h member).trans fresh.named.symm

/-- What is still to be read of the file around an included one stays as it is. -/
theorem Opening.unread (opening : Opening l between d place source)
    (poised : Poised ⟨between.nextId, between.ruleNames, between.ruleNames, between.rules, {}⟩ inner) : ∀ h ∈
    between.source.rest, (between.rejoin d.keyword inner).source.tokens.get? h = between.source.tokens.get? h := by
  obtain ⟨read, outer⟩ := opening.outer
  obtain ⟨joined, _⟩ := Accounted.rejoin outer poised.accounted
  refine fun h member => joined.outer h ?_
  rw [(outer.loose h (by simp [member])).own]
  exact TokenStream.id_mem_ids _

/-- The file around an included one is read on, and what was read in either keeps its text. -/
theorem Opening.rejoin (opening : Opening l between d place source)
    (inside : Course (between.enter source place) below inner)
    (forth : Forth (between.enter source place) inner)
    (poised : Poised ⟨between.nextId, between.ruleNames, between.ruleNames, between.rules, {}⟩ inner) :
    Forth between (between.rejoin d.keyword inner) ∧ Forth inner (between.rejoin d.keyword inner) ∧
      Poised l (between.rejoin d.keyword inner) := by
  obtain ⟨read, outer⟩ := opening.outer
  obtain ⟨joined, accounted⟩ := Accounted.rejoin outer poised.accounted
  obtain ⟨more, link⟩ := poised.accounted
  obtain ⟨scene, front, placed⟩ := opening.placed
  obtain ⟨nextId, strings, filled⟩ := (inside.arrayed opening.fresh).place
  have apart : ∀ id ∈ between.source.tokens.ids, id ∉ inner.source.tokens.ids := fun id here there =>
    Nat.not_lt.mpr (link.ids id there).1 (outer.ids id here).2
  have own (h : Handle) (member : h ∈ between.source.rest) : h.chain ∈ between.source.tokens.ids := by
    rw [(outer.loose h (by simp [member])).own]
    exact TokenStream.id_mem_ids _
  refine ⟨?_, ?_, ?_⟩
  · exact {
      settings := forth.settings
      read := fun h known => ⟨(joined.ids _).mpr (.inl known.1), known.2⟩
      same := fun h known => joined.outer h known.1
      text := fun h known => outer.text_among joined.outer known.1 }
  · exact {
      settings := rfl
      read := fun h known => ⟨(joined.ids _).mpr (.inr known.1), fun waits => apart _ (own h waits) known.1⟩
      same := fun h known => joined.inner h known.1
      text := fun h known => link.text_among joined.inner known.1 }
  · exact {
      empty := opening.around.empty
      accounted
      unnamed := fun h member a stored => opening.around.unnamed h member a
        ((opening.unread poised h member).symm.trans stored)
      modules := poised.modules
      place := ⟨_, _, (placed.rejoin (by simpa using filled)).2⟩ }

theorem Course.forth (course : Course s pieces s') : ∀ {l}, Poised l s → Forth s s' ∧ Poised l s' := by
  induction course with
  | done s => exact fun poised => ⟨.refl s, poised⟩
  | imported run rest ih =>
    intro l poised
    obtain ⟨first, poised'⟩ := poised.imported run
    obtain ⟨later, last⟩ := ih poised'
    exact ⟨first.trans later, last⟩
  | ruled run rest ih =>
    intro l poised
    obtain ⟨first, poised'⟩ := poised.ruled run
    obtain ⟨later, last⟩ := ih poised'
    exact ⟨first.trans later, last⟩
  | skipped run located shut again rest ih =>
    intro l poised
    obtain ⟨first, poised'⟩ := poised.directive run
    obtain ⟨later, last⟩ := ih poised'
    exact ⟨first.trans later, last⟩
  | opened run opens inside rest ihInside ihRest =>
    intro l poised
    have opening := poised.opening run opens
    obtain ⟨within, inner⟩ := ihInside opening.inner
    obtain ⟨across, _, poised'⟩ := opening.rejoin inside within inner
    obtain ⟨later, last⟩ := ihRest poised'
    exact ⟨((poised.directive run).1.trans across).trans later, last⟩

/-! ### Conditions -/

/-- What the condition of a rule sees behind other rules and imports, with the texts that tokens have in a state. -/
def State.sight (s : State) (rules : List String) (imports : List Import) (rule : Rule) : Outlook where
  word := s.source.tokens.text
  rules := rules
  imports := imports
  globals := if s.settings.features.virusTotal then virusTotalGlobals else []
  strings := rule.strings.values

/-- Each condition means something to one who sees the rules and imports before it. -/
def FineFrom (s : State) : List String → List Import → List Piece → Prop
  | _, _, [] => True
  | rules, imports, .imported i :: rest => FineFrom s rules (imports ++ [i]) rest
  | rules, imports, .ruled rule :: rest =>
    (s.sight rules imports rule).Fine {} rule.condition ∧
      FineFrom s (rules ++ [rule.nameText s.source.tokens]) imports rest
  | rules, imports, .opened .. :: rest => FineFrom s rules imports rest

private theorem fineFrom_append (s : State) : ∀ (pieces more : List Piece) (rules : List String)
    (imports : List Import),
    FineFrom s rules imports (pieces ++ more) ↔ FineFrom s rules imports pieces ∧
      FineFrom s (rules ++ (rulesOf pieces).map (·.nameText s.source.tokens)) (imports ++ importsOf pieces) more
  | [], more, rules, imports => by simp [FineFrom, rulesOf, importsOf]
  | .imported i :: rest, more, rules, imports => by
    simp [FineFrom, fineFrom_append s rest, rulesOf, importsOf, List.filterMap_cons, Piece.rule?, Piece.import?]
  | .ruled rule :: rest, more, rules, imports => by
    simp [FineFrom, fineFrom_append s rest, rulesOf, importsOf, List.filterMap_cons, Piece.rule?,
      Piece.import?, and_assoc]
  | .opened .. :: rest, more, rules, imports => by
    simp [FineFrom, fineFrom_append s rest, rulesOf, importsOf, List.filterMap_cons, Piece.rule?, Piece.import?]

private theorem fineFrom_imported {s : State} {rules : List String} {pieces : List Piece} :
    ∀ {more imports : List Import},
    FineFrom s rules (imports ++ more) pieces → FineFrom s rules imports (more.map .imported ++ pieces)
  | [], imports, fine => by simpa using fine
  | i :: more, imports, fine => @fineFrom_imported s rules pieces more (imports ++ [i]) (by simpa using fine)

variable {scene : Scene} {front row : List Handle}

theorem InPlace.hasRead (placed : InPlace scene front row s) {h : Handle} (member : h ∈ front ++ row) :
    s.HasRead h := by
  have listed : ((front ++ row) ++ s.source.rest).Sublist s.source.tokens.code := by simpa using placed.listed
  obtain ⟨a, stored, _⟩ := placed.tidy.get?_of_code (listed.subset (List.mem_append_left _ member))
  exact ⟨TokenStream.mem_ids_of_get? stored, List.disjoint_of_nodup_append (listed.nodup placed.tidy.code_nodup) member⟩

/-- The tokens of a rule that matter to its condition. -/
theorem sight_tokens (rule : Rule) {h : Handle} (member : h ∈ rule.condition.handles ∨ h = rule.name ∨
    ∃ string ∈ rule.strings.values, h = string.id) : h ∈ rule.row := by
  rcases member with inside | rfl | ⟨string, listed, rfl⟩
  · simp [Rule.row, Rule.bodyRow, Rule.conditionRow, inside]
  · simp [Rule.row]
  · have own : string.id ∈ rule.stringRow :=
      List.mem_append_right _ (List.mem_flatMap.mpr ⟨string, listed, by simp [StringDefinition.row]⟩)
    simp [Rule.row, Rule.bodyRow, own]

theorem Forth.fine (forth : Forth s s') {rule : Rule} (read : ∀ h ∈ rule.row, s.HasRead h) {rules : List String}
    {imports : List Import} (fine : (s.sight rules imports rule).Fine {} rule.condition) :
    (s'.sight rules imports rule).Fine {} rule.condition := by
  have globals : s'.sight rules imports rule = (s.sight rules imports rule).reworded s'.source.tokens.text := by
    simp [State.sight, Outlook.reworded, forth.settings]
  rw [globals]
  refine fine.reworded (fun h member => ?_) fun string member => ?_
  · exact forth.text h (read h (sight_tokens rule (.inl member)))
  · exact forth.text _ (read _ (sight_tokens rule (.inr (.inr ⟨string, member, rfl⟩))))

private theorem Forth.fineFrom (forth : Forth s s') {rules : List String} {imports : List Import}
    (read : ∀ rule ∈ rulesOf pieces, ∀ h ∈ rule.row, s.HasRead h)
    (fine : FineFrom s rules imports pieces) : FineFrom s' rules imports pieces := by
  induction pieces generalizing rules imports with
  | nil => trivial
  | cons piece rest ih =>
    cases piece with
    | imported i => exact ih read fine
    | opened => exact ih read fine
    | ruled rule =>
      have own : ∀ h ∈ rule.row, s.HasRead h := read rule List.mem_cons_self
      have name : rule.nameText s'.source.tokens = rule.nameText s.source.tokens :=
        forth.text _ (own _ (sight_tokens rule (.inr (.inl rfl))))
      refine ⟨forth.fine own fine.1, ?_⟩
      rw [name]
      exact ih (fun other member => read other (List.mem_cons_of_mem _ member)) fine.2

/-- Rules are known by the names that are written in the source. -/
theorem Accounted.names (accounted : Accounted l s) : ∃ read : List Rule, s.rules = l.held ++ read ∧
    (s.ruleNames.map (·.1)).reverse = (l.rules.map (·.1)).reverse ++ read.map (·.nameText s.source.tokens) := by
  obtain ⟨read, link⟩ := accounted
  have held : s.rules = l.held ++ read.map (·.2) := link.held
  refine ⟨_, held, ?_⟩
  have names : (read.map (·.2)).map (·.nameText s.source.tokens) = read.map (·.1) := by
    rw [List.map_map]
    exact List.map_congr_left link.nameText
  rw [link.rules, names]
  simp [Ledger.after, Function.comp_def]

private theorem rule_known {found : Rule} (poised : Poised l s) (run : rule s = .ok (found, between)) :
    (between.ruleNames.map (·.1)).reverse = (s.ruleNames.map (·.1)).reverse ++
    [found.nameText between.source.tokens] := by
  obtain ⟨read, link⟩ := poised.accounted
  obtain ⟨text, link'⟩ := rule_names s found between run link
  have names : between.ruleNames = (text, found.name) :: s.ruleNames := link'.rules.trans (congrArg _ link.rules.symm)
  obtain ⟨_, a, stored, kind, plain, word⟩ := link'.placed (.ruleName found.name text) (by simp [Rule.roles])
  have stored : between.source.tokens.get? found.name = some a := stored
  have same : found.nameText between.source.tokens = text := by
    rw [Rule.nameText, TokenStream.text_eq _ stored, TokenStream.textOf_plain _ plain, kind]
    exact word
  simp [names, same]

/-- Nothing changes about rules and imports where a directive is read. -/
theorem directive_keeps (poised : Poised l s) (run : directive s = .ok (d, between)) :
    between.ruleNames = s.ruleNames ∧ between.imports = s.imports := by
  obtain ⟨read, link⟩ := poised.accounted
  exact ⟨(directive_named s d between run link).rules.trans link.rules.symm,
    (directive_calm.onward s d between run).imports⟩

/-- Conditions mean something to those who see what was read before them. -/
theorem Course.fine (course : Course s pieces s') :
    ∀ {l}, Poised l s → FineFrom s' (s.ruleNames.map (·.1)).reverse s.imports pieces := by
  induction course with
  | done s => exact fun _ => trivial
  | @imported s between s' pieces run rest ih =>
    intro l poised
    obtain ⟨read, link⟩ := poised.accounted
    obtain ⟨scene, front, place⟩ := poised.place
    obtain ⟨more, _, after⟩ := importDirective_reads s () between run place
    have names : between.ruleNames = s.ruleNames :=
      (importDirective_links.passes s () between run link).rules.trans link.rules.symm
    have imports : between.imports = s.imports ++ more := by rw [after.imports, place.imports]
    have later := ih (poised.imported run).2
    rw [names, imports] at later
    rw [imports, List.drop_left]
    exact fineFrom_imported later
  | @ruled s between s' pieces found run rest ih =>
    intro l poised
    obtain ⟨read, link⟩ := poised.accounted
    obtain ⟨scene, front, place⟩ := poised.place
    obtain ⟨first, poised'⟩ := poised.ruled run
    have own (h : Handle) (member : h ∈ found.row) :
        State.HasRead { between with rules := between.rules ++ [found] } h :=
      (rule_reads s found between run place).2.hasRead (List.mem_append_right _ member)
    have forth := (rest.forth poised').1
    have onward : Onward [] [found.keyword] s between := rule_calm.onward s found between run link
    have later := ih poised'
    have names : found.nameText s'.source.tokens = found.nameText between.source.tokens :=
      forth.text _ (own _ (sight_tokens found (.inr (.inl rfl))))
    refine ⟨forth.fine own ?_, ?_⟩
    · have fine := rule_scoped link poised.unnamed poised.modules run
      have settings : between.settings = s.settings := first.settings
      simpa only [State.sight, State.outlook, Outlook.reworded, settings] using fine
    · have known : (between.ruleNames.map (·.1)).reverse = _ := rule_known poised run
      rw [names, ← known, ← onward.imports]
      exact later
  | @skipped s between s' pieces d place run located shut again rest ih =>
    intro l poised
    obtain ⟨names, imports⟩ := directive_keeps poised run
    rw [← names, ← imports]
    exact ih (poised.directive run).2
  | @opened s between inner s' below pieces d place content source run opens inside rest ihInside ihRest =>
    intro l poised
    obtain ⟨names, imports⟩ := directive_keeps poised run
    have opening := poised.opening run opens
    obtain ⟨within, poisedInner⟩ := inside.forth opening.inner
    obtain ⟨_, back, poised'⟩ := opening.rejoin inside within poisedInner
    have forth := back.trans (rest.forth poised').1
    obtain ⟨nextId, strings, filled⟩ := (inside.arrayed opening.fresh).place
    have read : ∀ rule ∈ rulesOf below, ∀ h ∈ rule.row, inner.HasRead h := fun rule member h own => by
      refine filled.hasRead (List.mem_append_left _
        (List.mem_append_right _ (List.mem_flatten.mpr ⟨rule.row, ?_, own⟩)))
      exact (rowsOf_perm below).mem_iff.mpr (List.mem_append_right _ (List.mem_map_of_mem member))
    -- The rules and imports of the included file are those that come next.
    obtain ⟨listed, held, known⟩ := poisedInner.accounted.names
    have listed_eq : listed = rulesOf below := by
      have found : inner.rules = between.rules ++ rulesOf below := filled.rules
      exact List.append_cancel_left (held.symm.trans found)
    have known' : (inner.ruleNames.map (·.1)).reverse = (s.ruleNames.map (·.1)).reverse ++
        (rulesOf below).map (·.nameText s'.source.tokens) := by
      rw [known, listed_eq, ← names]
      refine congrArg _ (List.map_congr_left fun rule member => ?_)
      exact (forth.text _ (read rule member _ (sight_tokens rule (.inr (.inl rfl))))).symm
    have imports' : inner.imports = s.imports ++ importsOf below := by
      rw [filled.imports, ← imports]
      rfl
    have later := ihRest poised'
    have here := ihInside opening.inner
    refine (fineFrom_append s' below pieces _ _).mpr ⟨?_, ?_⟩
    · rw [← names, ← imports]
      exact forth.fineFrom read here
    · rw [← known', ← imports']
      exact later

/-! ### Order -/

/-- The keyword of a piece that has one of its own. -/
def Piece.keyword? : Piece → Option Handle
  | imported i => some i.keyword
  | ruled rule => some rule.keyword
  | opened .. => none

def keywordsOf (pieces : List Piece) : List Handle := pieces.filterMap Piece.keyword?

private theorem keywordsOf_sublist (pieces : List Piece) : (keywordsOf pieces).Sublist (rowsOf pieces).flatten := by
  induction pieces with
  | nil => exact .slnil
  | cons piece rest ih =>
    cases piece with
    | imported i =>
      have own : [i.keyword].Sublist i.row := by simp [Import.row]
      exact own.append ih
    | ruled rule =>
      have own : [rule.keyword].Sublist rule.row := by simp [Rule.row]
      exact own.append ih
    | opened => exact ih

private theorem keywordsOf_import {i : Import} (member : i ∈ importsOf pieces) : i.keyword ∈ keywordsOf pieces := by
  obtain ⟨piece, among, same⟩ := List.mem_filterMap.mp member
  refine List.mem_filterMap.mpr ⟨piece, among, ?_⟩
  cases piece <;> cases same
  rfl

private theorem keywordsOf_rule {rule : Rule} (member : rule ∈ rulesOf pieces) : rule.keyword ∈ keywordsOf pieces := by
  obtain ⟨piece, among, same⟩ := List.mem_filterMap.mp member
  refine List.mem_filterMap.mpr ⟨piece, among, ?_⟩
  cases piece <;> cases same
  rfl

private theorem not_precedes_back {h k : Handle} :
    ∀ {code : List Handle}, code.Nodup → [h, k].Sublist code → ¬ [k, h].Sublist code
  | [], _, ahead, _ => by cases ahead
  | first :: rest, nodup, ahead, back => by
    obtain ⟨outside, nodup'⟩ := List.nodup_cons.mp nodup
    cases ahead with
    | cons _ ahead =>
      cases back with
      | cons _ back => exact not_precedes_back nodup' ahead back
      | cons_cons _ back => exact outside (ahead.subset (by simp))
    | cons_cons _ ahead =>
      cases back with
      | cons _ back => exact outside (back.subset (by simp))
      | cons_cons _ back => exact outside (back.subset (by simp))

end YaraRules.Grammar

namespace YaraRules.RuleFile

/-- One token is read before another. -/
def Precedes (file : RuleFile) (h k : Handle) : Prop := [h, k].Sublist file.tokens.code

instance (file : RuleFile) (h k : Handle) : Decidable (file.Precedes h k) :=
  inferInstanceAs (Decidable (List.Sublist ..))

/-- What the condition of a rule sees: rules and imports before it, wherever they stand, and its own strings. -/
def outlook (file : RuleFile) (rule : Rule) : Outlook where
  word := file.tokens.text
  rules := (file.rules.filter fun other => file.Precedes other.keyword rule.keyword).map (·.nameText file.tokens)
  imports := file.imports.filter fun i => file.Precedes i.keyword rule.keyword
  globals := if file.features.virusTotal then virusTotalGlobals else []
  strings := rule.strings.values

private theorem filter_precedes {file : RuleFile} {α : Type} (key : α → Handle) {first last : List α}
    {before after : List Handle} {k : Handle} (nodup : file.tokens.code.Nodup)
    (listed : (before ++ k :: after).Sublist file.tokens.code) (early : ∀ a ∈ first, key a ∈ before)
    (late : ∀ a ∈ last, key a ∈ k :: after) : (first ++ last).filter (fun a => file.Precedes (key a) k) = first := by
  have ahead (a : α) (member : a ∈ first) : file.Precedes (key a) k :=
    ((List.singleton_sublist.mpr (early a member)).append (List.singleton_sublist.mpr List.mem_cons_self)).trans listed
  have behind (a : α) (member : a ∈ last) : ¬ file.Precedes (key a) k := by
    rcases List.mem_cons.mp (late a member) with same | later
    · rw [same]
      exact List.nodup_iff_sublist.mp nodup k
    · refine Grammar.not_precedes_back nodup (List.Sublist.trans ?_ listed)
      exact List.Sublist.trans ((List.singleton_sublist.mpr later).cons_cons k) (List.sublist_append_right _ _)
  rw [List.filter_append, List.filter_eq_self.mpr fun a member => by simpa using ahead a member,
    List.filter_eq_nil_iff.mpr fun a member => by simpa using behind a member, List.append_nil]

end YaraRules.RuleFile

namespace YaraRules.Grammar

private theorem readSource_fine {settings : Settings} {tree : FileTree} {source : Source} {id : ChainId}
    {opened : List FileTree.Place} {file : RuleFile} (fresh : source.Fresh id) (untouched : Untouched source.tokens)
    (done : readSource settings tree source (id + 1) opened = .ok file) : ∀ rule ∈ file.rules,
    (file.outlook rule).Fine {} rule.condition := by
  obtain ⟨pieces, last, course, file_eq⟩ := readSource_course done
  have poised : Poised ⟨id, [], [], [], {}⟩ (.first settings tree source (id + 1) opened) := fresh.poised untouched
  obtain ⟨_, _, final⟩ := (course.arrayed fresh.first).place
  have tokens : file.tokens = last.source.tokens := by rw [← file_eq]; rfl
  have features : file.features = last.settings.features := by rw [← file_eq, (course.forth poised).1.settings]; rfl
  have imports : file.imports = importsOf pieces := by rw [← file_eq]; exact final.imports
  have rules : file.rules = rulesOf pieces := by rw [← file_eq]; exact final.rules
  have nodup : file.tokens.code.Nodup := tokens ▸ final.tidy.code_nodup
  have listed : (keywordsOf pieces).Sublist file.tokens.code :=
    tokens ▸ (keywordsOf_sublist pieces).trans ((List.sublist_append_left _ _).trans final.listed)
  intro rule member
  obtain ⟨piece, inside, same⟩ := List.mem_filterMap.mp (show rule ∈ rulesOf pieces from rules ▸ member)
  obtain rfl : piece = .ruled rule := by cases piece <;> cases same; rfl
  obtain ⟨before, after, rfl⟩ := List.append_of_mem inside
  have order : (keywordsOf before ++ rule.keyword :: keywordsOf after).Sublist file.tokens.code := by
    simpa [keywordsOf, List.filterMap_cons, Piece.keyword?] using listed
  have earlierRules : (file.rules.filter fun other => file.Precedes other.keyword rule.keyword) = rulesOf before := by
    have split : file.rules = rulesOf before ++ (rule :: rulesOf after) := by rw [rules, rulesOf_append]; rfl
    rw [split]
    refine RuleFile.filter_precedes Rule.keyword nodup order (fun _ => keywordsOf_rule) fun other member => ?_
    rcases List.mem_cons.mp member with rfl | later
    · exact List.mem_cons_self
    · exact List.mem_cons_of_mem _ (keywordsOf_rule later)
  have earlierImports : (file.imports.filter fun i => file.Precedes i.keyword rule.keyword) = importsOf before := by
    have split : file.imports = importsOf before ++ importsOf after := by rw [imports, importsOf_append]; rfl
    rw [split]
    exact RuleFile.filter_precedes Import.keyword nodup order (fun _ => keywordsOf_import) fun i member =>
      List.mem_cons_of_mem _ (keywordsOf_import member)
  have seen : file.outlook rule = last.sight ((rulesOf before).map (·.nameText last.source.tokens))
      (importsOf before) rule := by
    rw [RuleFile.outlook, State.sight, earlierRules, earlierImports, tokens, features]
  have fine := ((fineFrom_append _ before _ _ _).mp (course.fine poised)).2.1
  rw [seen]
  exact fine

end YaraRules.Grammar

namespace YaraRules.RuleFile

variable {file : RuleFile}

/-- Every condition of a file that was read means something to one who sees what comes before its rule. -/
theorem Read.fine (read : file.Read) : ∀ rule ∈ file.rules, (file.outlook rule).Fine {} rule.condition := by
  obtain ⟨_, _, _, _, _, fresh, untouched, done⟩ := read.source
  exact Grammar.readSource_fine fresh untouched done

/-- A rule whose condition names another rule and counts the strings that a loop goes through. -/
def countedContent : Bytes :=
  Bytes.ofText "rule a\x7bcondition:true\x7drule c\x7bstrings:$s=\"x\"condition:a and for any of($s*):(#<2.5)\x7d"

private theorem counted_nodes : yields (RuleFile.ofSource {} {} 0 countedContent) (fun file =>
    file.rules.any fun rule => ["#", "# < 2.5"].all fun text =>
      (rule.condition.sited {}).any fun node => node.1.loops.length == 1 && node.2.text file.tokens == text) =
      true := by
  decide +kernel

private theorem counted_node : ∀ text ∈ ["#", "# < 2.5"], ∃ file, RuleFile.ofSource {}
    {} 0 countedContent = .ok file ∧ ∃ rule ∈ file.rules, ∃ node ∈ rule.condition.sited {}, node.1.loops.length = 1 ∧
    node.2.text file.tokens = text := by
  intro text member
  obtain ⟨file, done, run⟩ := yields_iff.mp counted_nodes
  obtain ⟨rule, listed, texts⟩ := List.any_eq_true.mp run
  obtain ⟨node, inside, same⟩ := List.any_eq_true.mp (List.all_eq_true.mp texts text member)
  exact ⟨file, done, rule, listed, node, inside, by simpa using same⟩

/-- Whatever a condition names is there where it names it: strings of its rule, variables of the loops around, and the
rules, modules and globals that come before. -/
theorem Read.names_bound (read : file.Read) {rule : Rule} (listed : rule ∈ file.rules) {site : Site} {node : Expr}
    (inside : (site, node) ∈ rule.condition.sited {}) : (file.outlook rule).Bound site.loops node :=
  (read.fine rule listed _ inside).bound

theorem names_bound_count : ∃ file, RuleFile.ofSource {} {} 0 countedContent = .ok file ∧ ∃ rule ∈ file.rules,
    ∃ node ∈ rule.condition.sited {}, node.1.loops.length = 1 ∧ node.2.text file.tokens = "#" ∧
      (file.outlook rule).Bound node.1.loops node.2 := by
  obtain ⟨file, done, rule, listed, node, inside, loops, text⟩ := counted_node "#" (by simp)
  exact ⟨file, done, rule, listed, node, inside, loops, text, Read.names_bound (.ofSource done) listed inside⟩

/-- Every node has the type that its leaves and their symbols give it, and operands of types that its operator accepts.
A string or a boolean is compared with nothing that is known to be of another type. -/
theorem Read.types_declared (read : file.Read) {rule : Rule} (listed : rule ∈ file.rules) {site : Site} {node : Expr}
    (inside : (site, node) ∈ rule.condition.sited {}) : node.type = (file.outlook rule).typeAt site node ∧
      (file.outlook rule).Fitting site.loops node ∧
      ∀ type op left token right, node = .binary type op left token right → op.isComparison →
        left.type ∈ [.string, .boolean] ∨ right.type ∈ [.string, .boolean] →
        left.type = right.type ∨ left.type = .undefined ∨ right.type = .undefined := by
  have fits := read.fine rule listed _ inside
  refine ⟨fits.typed, fits.fitting, ?_⟩
  rintro type op left token right rfl compares strict
  exact fits.fitting.unmixed compares strict

theorem types_declared_comparison : ∃ file, RuleFile.ofSource {} {} 0 countedContent = .ok file ∧ ∃ rule ∈ file.rules,
    ∃ node ∈ rule.condition.sited {}, node.2.text file.tokens = "# < 2.5" ∧
    node.2.type = (file.outlook rule).typeAt node.1 node.2 ∧
      (file.outlook rule).Fitting node.1.loops node.2 := by
  obtain ⟨file, done, rule, listed, node, inside, _, text⟩ := counted_node "# < 2.5" (by simp)
  obtain ⟨typed, fitting, _⟩ := Read.types_declared (.ofSource done) listed inside
  exact ⟨file, done, rule, listed, node, inside, text, typed, fitting⟩

end YaraRules.RuleFile
