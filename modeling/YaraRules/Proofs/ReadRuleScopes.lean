import YaraRules.Proofs.ReadConditionScopes
import YaraRules.Proofs.ReadRuleWords

/-! What the condition of a rule sees while the rule is read. Its head lays out the strings
of the rule under their names and leaves all loops of earlier conditions; rules and modules
are those that were known when the rule began. -/

namespace YaraRules.Grammar

/-- What the condition of a rule would see if the rule were read now and had these strings. -/
def State.outlook (s : State) (strings : List StringDefinition) : Outlook where
  word := s.source.tokens.text
  rules := (s.ruleNames.map (·.1)).reverse
  imports := s.imports
  globals := if s.settings.features.virusTotal then virusTotalGlobals else []
  strings

variable {l : Ledger} {roles : List Role} {others : List Handle}

/-- What was read keeps its text while the source is read on. -/
theorem Linking.text_onward {s s' : State} {given : List Handle} (link : Linking l roles others s)
    (onward : Onward [] given s s') {h : Handle} (read : h ∉ s.source.rest) :
    s'.source.tokens.text h = s.source.tokens.text h := by
  obtain ⟨taken, rest, _, same⟩ := onward.read
  have within : taken ⊆ others ++ s.source.rest := rest ▸ fun k member => by simp [member]
  exact link.text_kept within (fun k outside => same k (by simpa using outside)) fun inside =>
    read (rest ▸ List.mem_append_left _ inside)

/-! ### Strings -/

/-- The strings of the rule are kept under their names, texts that begin with a sigil. Only those without a
name share it. -/
structure Keyed (s : State) : Prop where
  indexed : s.strings.Indexed
  labeled : s.strings.Labeled
  distinct : s.strings.Distinct "$"
  keyed : ∀ string ∈ s.strings.toList, s.source.tokens.text string.2.id = string.1
  sigil : ∀ string ∈ s.strings.toList, string.1.toList.head? = some '$'
  texts : ∀ string ∈ s.strings.values, Texted string.id s

theorem Keyed.onward {s s' : State} {given : List Handle} (keyed : Keyed s) (link : Linking l roles others s)
    (onward : Onward [] given s s') (strings : s'.strings = s.strings) : Keyed s' where
  indexed := strings ▸ keyed.indexed
  labeled := strings ▸ keyed.labeled
  distinct := strings ▸ keyed.distinct
  keyed string member := by
    rw [strings] at member
    obtain ⟨taken, _⟩ := link.placed _ (link.known string.2 (link.strings ▸ List.mem_map_of_mem member))
    have read : string.2.id ∉ s.source.rest := fun inside => taken (List.mem_append_right _ inside)
    exact (link.text_onward onward read).trans (keyed.keyed string member)
  sigil := strings ▸ keyed.sigil
  texts string member := Seen.lasting _ _ onward (keyed.texts string (strings ▸ member))

theorem Keyed.add {s : State} (keyed : Keyed s) {string : StringDefinition} {name : String}
    (text : s.source.tokens.text string.id = name) (sigil : name.toList.head? = some '$') (written : Texted string.id s)
    (fresh : name = "$" ∨ s.strings.contains name =
    false) : Keyed { s with strings := s.strings.insertAgain name string } where
  indexed := keyed.indexed.insertAgain _ _
  labeled := keyed.labeled.insertAgain _ _
  distinct := keyed.distinct.insertAgain keyed.indexed fresh _
  keyed other member := by
    rcases List.mem_append.mp (NameTrie.toList_insertAgain .. ▸ member : other ∈ s.strings.toList ++
      [(name, string)]) with old | new
    · exact keyed.keyed other old
    · obtain rfl := List.mem_singleton.mp new
      exact text
  sigil other member := by
    rcases List.mem_append.mp (NameTrie.toList_insertAgain .. ▸ member : other ∈ s.strings.toList ++
      [(name, string)]) with old | new
    · exact keyed.sigil other old
    · obtain rfl := List.mem_singleton.mp new
      exact sigil
  texts other member := by
    rcases List.mem_append.mp (NameTrie.values_insertAgain .. ▸ member : other ∈ s.strings.values ++
      [string]) with old | new
    · exact keyed.texts other old
    · obtain rfl := List.mem_singleton.mp new
      exact written

/-- The strings of a rule were read so far, and no loop of an earlier condition is left. -/
structure Shelved (l : Ledger) (roles : List Role) (others : List Handle) (s : State) : Prop where
  stocked : Stocked l roles others s
  unnamed : s.Unnamed
  keyed : Keyed s
  scopes : s.scopes = []
  stringLoops : s.stringLoops = 0

/-- No loop appears while the source is read on. -/
theorem Shelved.onward {s s' : State} {given : List Handle} (shelved : Shelved l roles others s)
    (onward : Onward [] given s s') (stocked : Stocked l roles others s') (keyed : Keyed s') :
    Shelved l roles others s' where
  stocked := stocked
  unnamed := by
    obtain ⟨_, link⟩ := shelved.stocked
    exact shelved.unnamed.onward link.unread_nodup onward
  keyed := keyed
  scopes := onward.nesting.scopes.elim (·.trans shelved.scopes) id
  stringLoops := onward.nesting.stringLoops.elim (·.trans shelved.stringLoops) id

/-- A step that gives no token a part leaves the strings as they are, and what holds of them and of what was read. -/
theorem Shelved.pass {α : Type} {step : Parse α} {given : α → List Handle} (holds : State → Prop)
    (quiet : ∀ l, Quiet l step) (calm : ∀ l roles, CalmFrom (Linking l roles others) [] step given)
    (lasting : ∀ {s s' : State} {given : List Handle}, Onward [] given s s' → s'.strings = s.strings → holds s →
    holds s') : Ensures (fun s => holds s ∧ Shelved l roles others s) step fun _ s => holds s ∧
    Shelved l roles others s := by
  rintro s a s' done ⟨held, shelved⟩
  obtain ⟨_, link⟩ := shelved.stocked
  have link' := (quiet _).passes s a s' done link
  have onward := (calm _ _).onward s a s' done link
  have same : s'.strings = s.strings := link'.strings.trans link.strings.symm
  exact ⟨lasting onward same held, shelved.onward onward ⟨_, link'⟩ (shelved.keyed.onward link onward same)⟩

private theorem addString_keyed :
    Ensures (fun s => s.Unnamed ∧ Stocked l roles others s ∧ Keyed s) addString fun _ => Keyed := by
  rintro s u s' done ⟨unnamed, ⟨strings, link⟩, keyed⟩
  obtain ⟨string, s₁, read, run⟩ := bind_done done
  have link₁ := stringDefinition_links.gives s string s₁ read link
  have keyed₁ := keyed.onward link (stringDefinition_calm.onward s string s₁ read)
    (link₁.strings.trans link.strings.symm)
  have named := stringDefinition_sigil s string s₁ read ⟨unnamed, link⟩
  suffices rest : Ensures (fun s => ((s.source.tokens.text string.id).toList.head? = some '$' ∧
    Texted string.id s) ∧ Keyed s) _
      fun _ => Keyed from rest s₁ u s' run ⟨named, keyed₁⟩
  refine .look (fun _ => rfl) fun id => .bind .get fun st => .ite (fun bare => .modify ?_) fun _ => ?_
  · rintro s ⟨rfl, rfl, ⟨sigil, text⟩, keyed⟩
    exact keyed.add rfl sigil text (.inl (by simpa using bare))
  · unfold NameTrie.insert?
    split
    next strings' found =>
      split_ifs at found with taken
      cases found
      refine .modify ?_
      rintro s ⟨rfl, rfl, ⟨sigil, text⟩, keyed⟩
      exact keyed.add rfl sigil text (.inr (by simpa using taken))
    next => exact .never (never_fail _ _)

private theorem addString_shelved : Ensures (Shelved l roles others) addString fun _ => Shelved l roles others :=
  fun s u s' done shelved => shelved.onward (addString_calm.onward s u s' done)
    (addString_stocks s u s' done shelved.stocked)
    (addString_keyed s u s' done ⟨shelved.unnamed, shelved.stocked, shelved.keyed⟩)

private theorem addStrings_shelved {starts : TokenKind → Bool} : ∀ bound,
    Ensures (Shelved l roles others) (itemsWhile starts addString bound) fun _ => Shelved l roles others
  | 0 => .pure fun _ shelved => shelved
  | bound + 1 => by
    refine .skip (fun _ => rfl) fun next => .ite (fun _ => .bind addString_shelved fun _ => ?_) fun _ => .pure
      fun _ shelved => shelved
    exact .bind (addStrings_shelved bound) fun _ => .pure fun _ shelved => shelved

private theorem optionalStrings_shelved :
    Ensures (Shelved l roles others) stringSection? fun _ => Shelved l roles others := by
  have expected (kind : TokenKind) : Ensures (Shelved l roles others) (expect kind) fun _ => Shelved l roles others :=
    .weaken (.consider _ (fun _ shelved => ⟨trivial, shelved⟩)
      (Shelved.pass (fun _ => True) (fun _ => expect_links kind)
      (fun _ _ => .always (expect_calm kind)) fun _ _ => id)) fun _ _ known => known.2
  refine .skip (fun _ => rfl) fun _ => .ite (fun _ => .bind ?_ fun _ => .pure fun _ shelved => shelved) fun _ => .pure
    fun _ shelved => shelved
  refine .bind (expected _) fun keyword => .bind (expected _) fun colon => ?_
  refine .skip (fun _ => rfl) fun _ => .guard (never_unexpected _) (.skip (fun _ => rfl) fun bound => ?_)
  exact .bind (addStrings_shelved bound) fun _ => .pure fun _ shelved => shelved

/-! ### Sections -/

private theorem addString_some : Ensures (fun _ => True) addString fun _ s => s.strings.values ≠ [] := by
  have grown {s : State} {id : String} {string : StringDefinition} : (s.strings.insertAgain id string).values ≠ [] := by
    simp [NameTrie.values_insertAgain]
  refine .bind (m := fun _ _ => True) (fun _ _ _ _ _ => trivial) fun string => .skip (fun _ => rfl)
    fun id => .bind .get fun st => ?_
  refine .ite (fun _ => .modify fun s known => known.1 ▸ grown) fun _ => ?_
  unfold NameTrie.insert?
  split
  next strings' found =>
    split_ifs at found
    cases found
    exact .modify fun s known => grown
  next => exact .never (never_fail _ _)

private theorem addStrings_some : ∀ bound, Ensures (fun s => s.strings.values ≠ [] ∨ Next .stringName s ∧ 0 < bound)
    (itemsWhile (· == .stringName) addString bound) fun _ s => s.strings.values ≠ []
  | 0 => .pure fun _ known => known.resolve_right (by simp)
  | bound + 1 => by
    refine .look (fun _ => rfl) fun next => .ite (fun _ => ?_) fun other => .pure fun s known => ?_
    · refine .bind (.consider _ (fun _ _ => trivial) addString_some) fun _ => ?_
      exact .bind (.consider _ (fun _ known => .inl known) (addStrings_some bound)) fun _ => .pure fun _ known => known
    · obtain ⟨rfl, known⟩ := known
      exact known.resolve_right fun ⟨begins, _⟩ => other (by simp [show _ = some _ from begins])

private theorem optionalStrings_some : Ensures (fun s => s.strings.values = []) stringSection? fun header s =>
    header.isSome ↔ s.strings.values ≠ [] := by
  refine .skip (fun _ => rfl) fun next => .ite (fun _ => ?_) fun _ => .pure fun s none => by simp [none]
  refine .bind (m := fun _ s => s.strings.values ≠ []) ?_ fun header => .pure fun s some => by simp [some]
  refine .bind (m := fun _ _ => True) (fun _ _ _ _ _ => trivial) fun keyword => ?_
  refine .bind (m := fun _ _ => True) (fun _ _ _ _ _ => trivial) fun colon => .look (fun _ => rfl) fun next => ?_
  refine .ite (fun _ => .never ((never_unexpected _).bind _)) fun begins => .look (fun _ => rfl) fun bound => ?_
  refine .bind (.consider _ ?_ (addStrings_some bound)) fun _ => .pure fun _ known => known
  rintro s ⟨rfl, next, _⟩
  have begins : Next .stringName s := next.trans (by simpa using begins)
  refine .inr ⟨begins, List.length_pos_iff.mpr fun ended => ?_⟩
  simp [Next, ended] at begins

private theorem optionalMetas_some : Gives metaSection? fun found => found.2 ≠ [] → found.1.isSome := by
  refine .after fun next => ?_
  split_ifs
  · exact .after fun (header, metas) => .pure fun _ => rfl
  · exact .pure fun some => absurd rfl some

/-! ### Rules -/

/-- The head of a rule is in order. -/
structure RuleHead.Formed (head : RuleHead) (s : State) : Prop where
  name : Texted head.name s
  modifiers : Differ (·.kind) head.modifiers s
  tags : Differ shown head.tags s
  colon : head.tagColon.isSome ↔ head.tags ≠ []
  metas : head.metas ≠ [] → head.metaSection.isSome
  strings : head.stringSection.isSome ↔ s.strings.values ≠ []

/-- Each rule begins without strings and outside of all loops. -/
theorem ruleHead_shelved : Ensures (fun s => s.Unnamed ∧ Linking l roles others s) ruleHead fun head s =>
    head.Formed s ∧ Shelved l roles others s := by
  let raw (s : State) : Prop := s.Unnamed ∧ s.source.rest.Nodup
  have lasting : Lasting raw := fun onward known => by
    obtain ⟨taken, rest, _⟩ := onward.read
    exact ⟨known.1.onward known.2 onward, (List.nodup_append.mp (rest ▸ known.2)).2.1⟩
  refine .consider (fun s => raw s ∧ Linking l roles others s) (fun s known =>
    ⟨⟨known.1, known.2.unread_nodup⟩, known.2⟩) ?_
  refine .skip (fun _ => rfl) fun bound => ?_
  refine .bind (.beside (ruleModifiers_calm bound []) (fun _ _ _ => lasting)
    (.consider _ (fun s link => ⟨⟨.nil, nofun⟩, link⟩)
    (ruleModifiers_differ bound []))) fun modifiers => ?_
  -- What is known of the modifiers lasts up to the name, with that of the name up to the tags, and with
  -- that of the tags up to the end.
  let marked (s : State) : Prop := raw s ∧ Differ (·.kind) modifiers s
  have lastingMarked : Lasting marked := fun onward known => ⟨lasting onward known.1, Differ.lasting _ _ onward known.2⟩
  refine .consider (fun s => marked s ∧ Linking l roles others s) (fun s known => ⟨⟨known.1, known.2.1⟩, known.2.2⟩) ?_
  refine .bind (.beside (expect_calm _) (fun _ _ _ => lastingMarked) (expect_links _).passes) fun keyword => ?_
  refine .consider (fun s => After marked [] s ∧ s.Unnamed ∧ Linking l roles others s)
    (fun s known => ⟨.start known.1, known.1.1.1, known.2⟩) ?_
  refine .bind (After.step (expect_calm _) (expect_texted (.inl rfl))) fun name => ?_
  refine .bind (After.step (refine_calm _ (by simp)) (refine_texted _)) fun _ => ?_
  refine .skip (fun _ => rfl) fun text => .skip (fun _ => rfl)
    fun _ => .ite (fun _ => .never (.bind (never_fail _ _) _)) fun _ => ?_
  let named (s : State) : Prop := marked s ∧ Texted name s
  have lastingNamed : Lasting named := fun onward known =>
    ⟨lastingMarked onward known.1, Seen.lasting _ _ onward known.2⟩
  refine .consider (fun s => named s ∧ Linking l roles others s)
    (fun s known => ⟨⟨known.1.now lastingMarked, known.2.1⟩, known.2.2.fewer (List.sublist_cons_self _ _)⟩) ?_
  refine .bind (.beside tags_calm (fun _ _ _ => lastingNamed) tags_differ) fun (tagColon, tags) => ?_
  let tagged (s : State) : Prop := named s ∧ Differ shown tags s
  have lastingTagged : Lasting tagged := fun onward known =>
    ⟨lastingNamed onward known.1, Differ.lasting _ _ onward known.2⟩
  refine .consider (fun s => (tagColon.isSome ↔ tags ≠ []) ∧ After tagged [] s ∧ Linking l roles others s)
    (fun s known => ⟨known.2.1.2, .start ⟨known.1, known.2.1.1⟩, known.2.2⟩) (.given fun colon => ?_)
  refine .bind (After.step (expect_calm _) (expect_ensures _)) fun opening => ?_
  refine .bind (After.step (refine_calm _ (by simp)) (modify_ensures fun _ own => own)) fun _ => ?_
  let bare (s : State) : Prop := tagged s ∧ s.strings.values = []
  refine .bind (m := fun _ s => bare s ∧ Shelved l roles others s) (.modify fun s known => ?_) fun _ => ?_
  · obtain ⟨after, link⟩ := known
    have known := after.now lastingTagged
    have emptied := (link.fewer (List.sublist_cons_self opening others)).restock
      (t := { s with strings := {}, scopes := [], stringLoops := 0 }) rfl rfl rfl rfl nofun
    obtain ⟨⟨⟨raw, kinds⟩, name⟩, texts⟩ := known
    exact ⟨⟨⟨⟨⟨raw, kinds.1, kinds.2⟩, name⟩, texts.1, texts.2⟩, rfl⟩, ⟨{}, (List.append_nil roles).symm ▸ emptied⟩,
      raw.1, ⟨NameTrie.indexed_empty, NameTrie.labeled_empty, .empty, nofun, nofun, nofun⟩, rfl, rfl⟩
  have metaSteps : Ensures (fun s => bare s ∧ Shelved l roles others s) metaSection? fun found s =>
      (found.2 ≠ [] → found.1.isSome) ∧ bare s ∧ Shelved l roles others s := by
    have passed := @Shelved.pass l roles others _ _ _ bare (fun _ => optionalMetas_links) (fun _ _ => optionalMetas_calm)
      fun onward same known => ⟨lastingTagged onward known.1, same ▸ known.2⟩
    intro s found s' done known
    exact ⟨optionalMetas_some s found s' done, passed s found s' done known⟩
  refine .bind metaSteps fun (metaSection, metas) => .given fun entries => ?_
  let filled (header : Option Section) (s : State) : Prop := tagged s ∧ (header.isSome ↔ s.strings.values ≠ [])
  have stringSteps : Ensures (fun s => bare s ∧ Shelved l roles others s) stringSection? fun header s =>
      filled header s ∧ Shelved l roles others s := by
    intro s header s' done ⟨known, shelved⟩
    have still : tagged s' := lastingTagged (optionalStrings_calm.onward s header s' done) known.1
    exact ⟨⟨still, optionalStrings_some s header s' done known.2⟩, optionalStrings_shelved s header s' done shelved⟩
  refine .bind stringSteps fun stringSection => ?_
  have expected (kind : TokenKind) : Ensures (fun s => filled stringSection s ∧ Shelved l roles others s) (expect kind)
      fun _ s => filled stringSection s ∧ Shelved l roles others s :=
    Shelved.pass (filled stringSection) (fun _ => expect_links kind) (fun _ _ => .always (expect_calm kind))
      fun onward same known => ⟨lastingTagged onward known.1, same ▸ known.2⟩
  refine .bind (expected _) fun keyword' => .bind (expected _) fun colon' => .pure fun s known => ?_
  obtain ⟨⟨⟨⟨⟨_, kinds⟩, name⟩, texts⟩, strings⟩, shelved⟩ := known
  exact ⟨⟨name, kinds, texts, colon, entries, strings⟩, shelved⟩

/-- Modules are known by the names of what they hold. -/
def Import.Named (i : Import) : Prop := i.imported.content.name = i.moduleName

/-- What the condition sees is laid out when it begins. -/
theorem ruleHead_ready {s s' : State} {head : RuleHead} (link : Linking l roles [] s) (unnamed : s.Unnamed)
    (modules : ∀ i ∈ s.imports, Import.Named i) (done : ruleHead s = .ok (head, s')) :
    ∃ strings, Sighted ((s.outlook strings.values).reworded s'.source.tokens.text) { l with strings } ∧
      Ready ((s.outlook strings.values).reworded s'.source.tokens.text) { l with strings } [] [] s' := by
  obtain ⟨text, _, strings, link'⟩ := ruleHead_names s head s' done link
  have onward : Onward [] [head.keyword] s s' := ruleHead_calm.onward s head s' done link
  obtain ⟨formed, shelved⟩ := ruleHead_shelved s head s' done ⟨unnamed, link⟩
  have kept : s'.strings = strings := link'.strings
  have apart : s.source.rest.Nodup := by simpa using link.apart
  refine ⟨strings, ?_, ?_⟩
  · exact {
      rules := fun name => link.rules ▸ List.mem_reverse
      strings := rfl
      neat := kept ▸ shelved.keyed.indexed.toNeat
      labeled := kept ▸ shelved.keyed.labeled
      keyed := fun string member => shelved.keyed.keyed string (kept.symm ▸ member)
      modules }
  · exact {
      linking := ⟨_, link'⟩
      tables := shelved.scopes
      depth := shelved.stringLoops
      word := fun _ => rfl
      raw := unnamed.onward apart onward
      imports := congrArg Surroundings.imports onward.around
      globals := by
        rw [show s'.settings = s.settings from congrArg Surroundings.settings onward.around]
        rfl }

theorem ruleTail_ready {o : Outlook} (head : RuleHead) (condition : Expr) :
    Ensures (Ready o l [] []) (ruleTail head condition) fun rule s =>
      rule.condition = condition ∧ rule.strings = l.strings ∧ ∀ h, s.source.tokens.text h = o.word h := by
  refine .bind (expect_kinded _) fun closing => .bind (refine_kinded (fun _ => rfl) (by decide)) fun _ => ?_
  refine .consider _ (fun s known => known.2) (.skip (fun _ => rfl) fun start => .skip (fun _ => rfl) fun stop => ?_)
  refine .skip (fun _ => rfl) fun text => ?_
  rintro s rule s' ⟨⟩ ready
  obtain ⟨_, link⟩ := ready.linking
  exact ⟨rfl, link.strings, ready.word⟩

/-- The condition of a rule means something to one who sees what was known when the rule began. -/
theorem rule_scoped {s s' : State} {rule : Rule} (link : Linking l roles [] s) (unnamed : s.Unnamed)
    (modules : ∀ i ∈ s.imports, Import.Named i) (done : Grammar.rule s = .ok (rule, s')) :
    ((s.outlook rule.strings.values).reworded s'.source.tokens.text).Fine {} rule.condition := by
  obtain ⟨head, s₁, began, run⟩ := bind_done done
  obtain ⟨condition, s₂, read, run⟩ := bind_done run
  obtain ⟨strings, sighted, ready⟩ := ruleHead_ready link unnamed modules began
  have meant := condition_meant sighted s₁ condition s₂ read ready
  obtain ⟨rfl, kept, words⟩ := ruleTail_ready head condition s₂ rule s' run meant.ready
  have strings : rule.strings = strings := kept
  rw [strings, show s'.source.tokens.text = s₁.source.tokens.text from funext words]
  exact meant.fine

end YaraRules.Grammar
