import YaraRules.Grammar.Rule
import YaraRules.Proofs.ReadConditionNames

/-! Names in rules. The name of a rule and those of its strings are tokens that keep their
texts; they get their parts where they are read, before any condition can lead to them.
A rule can be named in conditions only from its end on. -/

namespace YaraRules.Grammar

open TokenStream (Plain ButFor)

variable {α β : Type} {l : Ledger}

section

variable {spare : List Handle} {before : List Role} {last : β → List Role} {h : Handle}

/-- A token that may be missing is there to be used. -/
theorem Links.accept {kind : TokenKind} {next : Option Handle → Parse β}
    (without : Links l spare before (next none) last)
    (found : ∀ h, Links l (h :: spare) before (next (some h)) last) : Links l spare before
    (accept? kind >>= next) last := by
  intro others roles
  have all (token : Option Handle) :
    Ensures (Linking l (roles ++ before) (token.toList ++ (spare ++ others))) (next token)
      fun b => Linking l (roles ++ last b) others := by
    cases token with
    | none => exact without others roles
    | some h => exact found h others roles
  refine .bind ?_ all
  refine .bind (m := fun _ => Linking l (roles ++ before) (spare ++ others)) ?_ fun _ => ?_
  · simpa using peek_links (spare ++ others) (roles ++ before)
  · exact .ite (fun _ => .bind advance_ensures fun h => .pure fun _ link => link) fun _ => .pure fun _ link => link

/-- No alias leads to a token that is still to be used. -/
theorem Linking.unnamed {roles : List Role} {s : State} (link : Linking l roles spare s) (waits : h ∈ spare)
    (k : Handle) (a : Token) (stored : s.source.tokens.get? k = some a) : a.literal.aliasTarget? ≠ some h := by
  intro points
  have free (role : Role) (member : role ∈ roles) : role.token ≠ h := fun same =>
    (link.placed role member).1 (List.mem_append_left _ (same ▸ waits))
  rcases link.aliases k a h stored points with ⟨_, text, named⟩ | ⟨_, named⟩
  · exact free _ named rfl
  · exact free _ named rfl

private theorem eraseOne_links {next : Parse β} (rest : Links l spare before next last) :
    Links l (h :: spare) before (do
    match (← tokens).eraseOne h with
    | .ok tokens => modifyTokens fun _ => tokens
    | .error _ => pure ()
    next) last := by
  intro others roles s b s' done link
  have run : (match s.source.tokens.eraseOne h with
    | .ok tokens => do modifyTokens fun _ => tokens; next
    | .error _ => next : Parse β) s = .ok (b, s') := done
  cases erased : s.source.tokens.eraseOne h with
  | error e =>
    simp only [erased] at run
    exact rest others roles s b s' run (link.fewer (List.sublist_cons_self h _))
  | ok tokens =>
    simp only [erased] at run
    have loose := link.loose h (by simp)
    obtain ⟨change, gone⟩ :=
      link.sound.eraseOne_butFor link.distinct loose.own loose.bare (link.unnamed (by simp)) erased
    have left := link.change change [] nofun fun a target found => by simp [gone] at found
    rw [List.append_nil] at left
    exact rest others roles _ b s' run left

end

/-! ### Tags and metadata -/

theorem ruleModifiers_links : ∀ bound before, Quiet l (ruleModifiers bound before)
  | 0, _ => .pure fun _ => .rfl
  | bound + 1, before => by
    refine .skip peek_links fun next => ?_
    cases next with
    | none => exact .pure fun _ => .rfl
    | some kind =>
      refine .ite (fun _ => .skip advance_links fun token => .ite (fun _ => ?_) fun _ => ?_)
        fun _ => .pure fun _ => .rfl
      · exact .skip (textOf_links token) fun _ => .never (.bind (never_fail _ _) _)
      · exact ruleModifiers_links bound _

private theorem tagsAfter_links : ∀ bound before, Quiet l (tagsAfter bound before)
  | 0, _ => .pure fun _ => .rfl
  | bound + 1, before => by
    refine .skip peek_links fun next => .ite (fun _ => ?_) fun _ => .pure fun _ => .rfl
    refine .advance fun token => .refine (.drop (.skip tokens_links fun tokens => ?_))
    exact .guard (never_fail _ _) (tagsAfter_links bound _)

theorem tags_links : Quiet l tags := by
  refine .skip (accept_links _) fun colon => ?_
  cases colon with
  | none => exact .pure fun _ => .rfl
  | some colon =>
    refine .skip remaining_links fun bound => .skip (tagsAfter_links bound []) fun tags => ?_
    exact .guard (never_unexpected _) (.pure fun _ => .rfl)

theorem negated_plain {literal negated : Literal} (done : negated? literal = some negated) :
    negated.aliasTarget? = none := by
  unfold negated? at done
  split at done
  · split at done <;> cases done <;> rfl
  · cases done

private theorem negativeNumber_links : Quiet l negativeNumber := by
  refine .advance fun minus => .advance fun value => .skip tokens_links fun tokens => ?_
  dsimp only
  split
  · exact .never (never_fail _ _)
  next found => exact .setLiteral (negated_plain found) (.drop (eraseOne_links (.pure fun _ => .rfl)))

private theorem metaValue_links : Quiet l metaValue := by
  refine .skip peek_links fun next => ?_
  split
  · exact .skip advance_links fun token => .skip (checkEscapes_links token) fun _ => .pure fun _ => .rfl
  · exact advance_links
  · exact advance_links
  · exact .skip (peekAt_links 1) fun _ => .ite (fun _ => negativeNumber_links) fun _ => .never (never_unexpected _)
  · exact .never (never_unexpected _)

theorem metaEntry_links : Quiet l metaEntry := by
  refine .expect fun key => .refine (.drop (.skip (expect_links _) fun assign => ?_))
  exact .skip metaValue_links fun value => .pure fun _ => .rfl

private theorem metaSection_links : Quiet l metaSection := by
  refine .skip (expect_links _) fun keyword => .skip (expect_links _) fun colon => .skip remaining_links fun bound => ?_
  exact .bind (itemsWhile_links metaEntry_links bound) fun metas => .pure (by simp)

theorem optionalMetas_links : Quiet l metaSection? :=
  .skip peek_links fun _ => .ite (fun _ => .skip metaSection_links fun _ => .pure fun _ => .rfl)
    fun _ => .pure fun _ => .rfl

/-! ### Hex strings and modifiers -/

private theorem jumpEnd_links (opening : Handle) (low dash high : Option Handle) :
    Quiet l (jumpEnd opening low dash high) := by
  unfold jumpEnd
  refine .guard (never_unexpected _) (.skip (expect_links _) fun closing => .skip tokens_links fun tokens => ?_)
  dsimp only
  split
  · exact .guard (never_fail _ _) (.pure fun _ => .rfl)
  · exact .pure fun _ => .rfl

private theorem hexJump_links : Quiet l hexJump := by
  refine .skip (expect_links _) fun opening => .skip (accept_links _) fun low => .skip (accept_links _) fun dash => ?_
  cases dash with
  | some _ => exact .skip (accept_links _) (jumpEnd_links opening low _)
  | none => exact .skip (.pure fun _ => .rfl) (jumpEnd_links opening low none)

private theorem hexUnits_links : ∀ bound, Quiet l (hexUnits bound)
  | 0 => .pure fun _ => .rfl
  | bound + 1 => by
    refine .skip peek_links fun next => ?_
    split
    · refine .skip advance_links fun token => .skip (textOf_links token) fun text => .guard (never_fail _ _) ?_
      exact .skip (hexUnits_links bound) fun units => .pure fun _ => .rfl
    · exact .skip hexJump_links fun jump => .skip (hexUnits_links bound) fun units => .pure fun _ => .rfl
    · have alternative : Quiet l (do
          let units ← hexUnits bound
          if units.isEmpty then unexpected "hex byte" else return units) :=
        .skip (hexUnits_links bound) fun units => .ite (fun _ => .never (never_unexpected _))
          fun _ => .pure fun _ => .rfl
      refine .skip advance_links fun opening => .bind (separated_links alternative bound) fun alternatives => ?_
      refine .guard (never_unexpected _) (.skip (expect_links _) fun closing => ?_)
      exact .skip (hexUnits_links bound) fun units => .pure (by simp)
    · exact .pure fun _ => .rfl

private theorem hexString_links : Quiet l hexString := by
  refine .expect fun opening => .skip remaining_links fun bound => .skip (hexUnits_links bound) fun units => ?_
  refine .guard (never_unexpected _) (.skip (expect_links _) fun closing => .skip tokens_links fun tokens => ?_)
  exact .breakAfter (.drop (.pure fun _ => .rfl))

private theorem xorKey_links (token : Handle) : Quiet l (xorKey token) := by
  refine .skip tokens_links fun tokens => ?_
  split
  · exact .ite (fun _ => .pure fun _ => .rfl) fun _ => .never (never_fail _ _)
  · exact .never (never_fail _ _)

private theorem xorModifier_links (first : Handle) : Quiet l (xorModifier first) := by
  refine .accept (.pure fun _ => .rfl) fun _ =>
    .drop (.skip (expect_links _) fun token => .skip (xorKey_links token) fun low => ?_)
  have rest (high : UInt8) : Quiet l (do
      let closing ← expect .closeParen
      return (ModifierKind.xor (some (low, high)), closing)) := .skip (expect_links _) fun _ => .pure fun _ => .rfl
  refine .accept (rest low) fun dash => .refine (.drop (.skip (expect_links _) fun token' => ?_))
  exact .skip (xorKey_links token') fun high => .guard (never_fail _ _) (rest high)

private theorem alphabet_links (first : Handle) : Quiet l (alphabet first) := by
  refine .accept (.pure fun _ => .rfl) fun _ => .drop (.skip (expect_links _) fun token => ?_)
  refine .skip (checkEscapes_links token) fun _ => .skip tokens_links fun tokens => .guard (never_fail _ _) ?_
  exact .skip (expect_links _) fun closing => .pure fun _ => .rfl

private theorem modifier_links (kind : TokenKind) : Quiet l (modifier kind) := by
  refine .advance fun first => ?_
  dsimp only
  split
  · exact .drop (.pure fun _ => .rfl)
  · exact .drop (.pure fun _ => .rfl)
  · exact .drop (.pure fun _ => .rfl)
  · exact .drop (.pure fun _ => .rfl)
  · exact .refine (.drop (.pure fun _ => .rfl))
  · exact .drop (.skip (xorModifier_links first) fun _ => .pure fun _ => .rfl)
  · exact .drop (.skip (alphabet_links first) fun _ => .pure fun _ => .rfl)
  · exact .drop (.skip (alphabet_links first) fun _ => .pure fun _ => .rfl)
  · exact .never (never_unexpected _)

private theorem checkModifier_links (content : StringContent) (before : List StringModifier) (m : StringModifier) :
    Quiet l (checkModifier content before m) := by
  refine .guard (never_fail _ _) (.forM (fun other => ?_) before)
  exact .ite (fun _ => .never (never_fail _ _)) fun _ => .ite (fun _ => .never (never_fail _ _))
    fun _ => .pure fun _ => .rfl

private theorem modifiers_links (content : StringContent) : ∀ bound before, Quiet l (modifiers content bound before)
  | 0, _ => .pure fun _ => .rfl
  | bound + 1, before => by
    refine .skip peek_links fun next => ?_
    cases next with
    | none => exact .pure fun _ => .rfl
    | some kind =>
      refine .ite (fun _ => .skip (modifier_links kind) fun m => ?_) fun _ => .pure fun _ => .rfl
      exact .skip (checkModifier_links content before m) fun _ => modifiers_links content bound _

private theorem stringContent_links : Quiet l stringContent := by
  refine .skip peek_links fun next => ?_
  split
  · exact .skip advance_links fun token => .skip (checkEscapes_links token) fun _ => .pure fun _ => .rfl
  · exact .skip hexString_links fun string => .pure fun _ => .rfl
  · exact .skip advance_links fun token => .skip (readRegexp_links token) fun _ => .pure fun _ => .rfl
  · exact .never (never_unexpected _)

/-! ### Strings -/

theorem Links.stringName {next : Unit → Parse β} {last : β → List Role} {h : Handle} {spare : List Handle}
    {before : List Role} (rest : Links l spare (before ++ [.stringName h]) (next ⟨⟩) last) :
    Links l (h :: spare) before (Grammar.refine h .stringDefinition >>= next) last := by
  intro others roles
  refine .bind (.modify fun s link => ?_) fun _ => rest others roles
  obtain ⟨a, stored, plain⟩ := (link.loose h (by simp)).plain
  have now : (s.source.tokens.setKind h .stringDefinition).get? h = some { a with kind := .stringDefinition } := by
    rw [TokenStream.setKind, TokenStream.get?_modify, if_pos rfl, stored]
    rfl
  rw [← List.append_assoc]
  refine link.use (link.sound.modify_butFor h _) now rfl ⟨rfl, plain⟩ fun target points => ?_
  cases (show a.literal.aliasTarget? = none from plain).symm.trans points

theorem stringDefinition_links : Links l [] [] stringDefinition fun string => [.stringName string.id] := by
  refine .expect fun id => .stringName (.skip (expect_links _) fun assign =>
    .skip stringContent_links fun content => ?_)
  exact .skip remaining_links fun bound => .skip (modifiers_links content bound []) fun modifiers => .pure fun _ => .rfl

section

variable {roles : List Role} {others : List Handle}

theorem Links.gives {step : Parse α} {row : α → List Role} (links : Links l [] [] step row) :
    Ensures (Linking l roles others) step fun a => Linking l (roles ++ row a) others := by
  simpa using links others roles

theorem Links.passes {step : Parse α} (quiet : Quiet l step) :
    Ensures (Linking l roles others) step fun _ => Linking l roles others := by
  simpa using quiet others roles

/-- The names of the strings so far have their parts. -/
def Stocked (l : Ledger) (roles : List Role) (others : List Handle) (s : State) : Prop :=
  ∃ strings : NameTrie StringDefinition,
    Linking { l with strings } (roles ++ strings.values.map (.stringName ·.id)) others s

theorem Stocked.add {strings : NameTrie StringDefinition} {id : String} {string : StringDefinition} {s : State}
    (link : Linking { l with strings } (roles ++ strings.values.map (.stringName ·.id) ++ [.stringName string.id])
      others s) :
    Stocked l roles others { s with strings := s.strings.insertAgain id string } := by
  obtain rfl : s.strings = strings := link.strings
  have values := NameTrie.values_insertAgain s.strings id string
  have grown := link.restock (t := { s with strings := s.strings.insertAgain id string }) rfl rfl rfl rfl
    fun other member => by
    rw [values] at member
    have : other ∈ s.strings.values ∨ other = string := by simpa using member
    rcases this with old | rfl
    · exact List.mem_append_left _ (List.mem_append_right _ (List.mem_map.mpr ⟨other, old, rfl⟩))
    · simp
  exact ⟨_, by rw [values]; simpa using grown⟩

theorem addString_stocks : Ensures (Stocked l roles others) addString fun _ => Stocked l roles others := by
  refine .each fun strings => .bind stringDefinition_links.gives fun string =>
    .bind (textOf_links _).passes fun id => ?_
  refine .bind .get fun st => .ite (fun _ => .modify ?_) fun _ => ?_
  · rintro s ⟨rfl, link⟩
    exact .add link
  · unfold NameTrie.insert?
    split
    next strings' found =>
      split_ifs at found
      cases found
      refine .modify ?_
      rintro s ⟨rfl, link⟩
      exact .add link
    next => exact .never (never_fail _ _)

private theorem addStrings_stocks {starts : TokenKind → Bool} : ∀ bound,
    Ensures (Stocked l roles others) (itemsWhile starts addString bound) fun _ => Stocked l roles others
  | 0 => .pure fun _ stocked => stocked
  | bound + 1 => by
    refine .bind (still_ensures fun _ _ _ done => by cases done; rfl) fun next => ?_
    refine .ite (fun _ => .bind addString_stocks fun _ => ?_) fun _ => .pure fun _ stocked => stocked
    exact .bind (addStrings_stocks bound) fun _ => .pure fun _ stocked => stocked

private theorem optionalStrings_stocks (none : l.strings.values = []) :
    Ensures (Linking l roles others) stringSection? fun _ => Stocked l roles others := by
  have start (s : State) (link : Linking l roles others s) : Stocked l roles others s :=
    ⟨l.strings, by simpa [none] using link⟩
  refine .bind peek_links.passes fun _ => .ite (fun _ => .bind ?_ fun _ => .pure fun _ stocked => stocked)
    fun _ => .pure start
  refine .bind (expect_links _).passes fun keyword => .bind (expect_links _).passes fun colon => ?_
  refine .bind peek_links.passes fun _ => .guard (never_unexpected _) (.bind remaining_links.passes fun bound => ?_)
  exact .consider _ start (.bind (addStrings_stocks bound) fun _ => .pure fun _ stocked => stocked)

/-! ### Rules -/

/-- What is known once a rule was read. -/
def Ledger.list (l : Ledger) (text : String) (name : Handle) : Ledger :=
  { l with rules := (text, name) :: l.rules, strings := {} }

theorem Linking.list {s : State} {text : String} {h : Handle} (link : Linking l roles others s)
    (fresh : text ∉ l.rules.map (·.1)) (named : .ruleName h text ∈ roles) :
    Linking (l.list text h) roles others { s with strings := {}, ruleNames := (text, h) :: s.ruleNames } where
  sound := link.sound
  distinct := link.distinct
  ids := link.ids
  loose := link.loose
  apart := link.apart
  rules := congrArg _ link.rules
  held := link.held
  strings := rfl
  unique := List.nodup_cons.mpr ⟨fresh, link.unique⟩
  older := link.older
  named := fun rule member => (List.mem_cons.mp member).elim (fun same => .inr (same ▸ named)) (link.named rule)
  known := nofun
  placed := fun role member => by
    obtain ⟨taken, a, stored, suits⟩ := link.placed role member
    exact ⟨taken, a, stored, suits.mono (List.subset_cons_self _ _)⟩
  aliases := link.aliases

theorem kind_ensures {h : Handle} {kind : TokenKind} : Ensures (Linking l roles (h :: others)) (refine h kind)
    fun _ s => Linking l roles (h :: others) s ∧ ∃ a, s.source.tokens.get? h = some a ∧ a.kind = kind ∧ Plain a := by
  refine .modify fun s link => ?_
  obtain ⟨a, stored, plain⟩ := (link.loose h (by simp)).plain
  have now : (s.source.tokens.setKind h kind).get? h = some { a with kind } := by
    rw [TokenStream.setKind, TokenStream.get?_modify, if_pos rfl, stored]
    rfl
  exact ⟨link.hold (link.sound.modify_butFor h _) ⟨_, now, plain⟩, _, now, rfl, plain⟩

private theorem ruleName_ensures {h : Handle} : Ensures (fun s => Linking l roles (h :: others) s ∧
    ∃ a, s.source.tokens.get? h = some a ∧ a.kind = .ruleName ∧ Plain a) (textOf h) fun text =>
      Linking l (roles ++ [.ruleName h text]) others := by
  rintro s text s' ⟨⟩ ⟨link, a, stored, kind, plain⟩
  have word : a.literal.text = s.source.tokens.text h := by
    rw [TokenStream.text_eq _ stored, TokenStream.textOf_plain _ plain, kind]
    rfl
  refine link.use (link.sound.butFor_self h) stored rfl ⟨kind, plain, word⟩ fun target points => ?_
  cases (show a.literal.aliasTarget? = none from plain).symm.trans points

/-- The name of a rule is none that a rule has. -/
theorem ruleHead_names : Ensures (Linking l roles others) ruleHead fun head s =>
    ∃ text, text ∉ l.rules.map (·.1) ∧ Stocked l (roles ++ [.ruleName head.name text]) others s := by
  refine .bind remaining_links.passes fun bound => .bind (ruleModifiers_links bound []).passes fun modifiers => ?_
  refine .bind (expect_links _).passes fun keyword => .bind (expect_ensures _) fun name => ?_
  refine .bind kind_ensures fun _ => .bind ruleName_ensures fun text => .bind .get fun st => ?_
  refine .ite (fun _ => .never (.bind (never_fail _ _) _)) fun free => ?_
  have known (s : State) : st = s ∧ Linking l (roles ++ [.ruleName name text]) others s →
      text ∉ l.rules.map (·.1) ∧ Linking l (roles ++ [.ruleName name text]) others s := by
    rintro ⟨rfl, link⟩
    exact ⟨link.fresh free, link⟩
  refine .consider _ known (.given fun fresh => .bind tags_links.passes fun (tagColon, tags) => ?_)
  refine .bind (expect_ensures _) fun opening => .bind kind_ensures fun _ => ?_
  refine .bind (m := fun _ => Linking { l with strings := {} } (roles ++ [.ruleName name text]) others)
    (.modify ?_) fun _ => ?_
  · rintro s ⟨link, _⟩
    exact (link.fewer (List.sublist_cons_self opening _)).restock
      (t := { s with strings := {}, scopes := [], stringLoops := 0 })
      rfl rfl rfl rfl nofun
  refine .bind optionalMetas_links.passes fun (metaSection, metas) => .bind (optionalStrings_stocks rfl)
    fun stringSection => ?_
  refine .each fun strings => .bind (expect_links _).passes fun keyword' =>
    .bind (expect_links _).passes fun colon => ?_
  exact .pure fun s link => ⟨text, fresh, strings, link⟩

private theorem ruleTail_names (head : RuleHead) (condition : Expr) {text : String}
    {strings : NameTrie StringDefinition}
    (fresh : text ∉ l.rules.map (·.1)) :
    Ensures (Linking { l with strings } (roles ++ [.ruleName head.name text] ++ strings.values.map (.stringName ·.id) ++
      condition.uses (strings.values.map (·.id))) others) (ruleTail head condition) fun rule =>
        Linking (l.list text rule.name) (roles ++ rule.roles text) others := by
  refine .bind (expect_ensures _) fun closing => .bind kind_ensures fun _ => ?_
  refine .consider _ (fun s known => known.1.fewer (List.sublist_cons_self closing _)) ?_
  refine .bind (locationOf_links _).passes fun start => .bind (locationOf_links _).passes fun stop => ?_
  intro s rule s' done link
  obtain ⟨_, a, stored, kind, plain, word⟩ := link.placed (.ruleName head.name text) (by simp)
  have stored : s.source.tokens.get? head.name = some a := stored
  have same : s.source.tokens.text head.name = text := by
    rw [TokenStream.text_eq _ stored, TokenStream.textOf_plain _ plain, kind]
    exact word
  cases done
  have listed : Linking (l.list text head.name) _ _ _ := link.list fresh (by simp)
  have kept : s.strings = strings := link.strings
  subst kept
  simpa [Rule.roles, Rule.ids, same, Function.comp_def] using listed

/-- A rule gets its name, those of its strings and what its condition names. -/
theorem rule_names : Ensures (Linking l roles others) rule fun rule s =>
    ∃ text, Linking (l.list text rule.name) (roles ++ rule.roles text) others s := by
  refine .bind ruleHead_names fun head => .each fun text => .given fun fresh => .each fun strings => ?_
  refine .bind condition_links.gives fun condition => ?_
  exact .weaken (ruleTail_names head condition fresh) fun rule s link => ⟨text, link⟩

end

end YaraRules.Grammar
