import YaraRules.Proofs.DraftRows
import YaraRules.Proofs.MetaEntries

/-! Texts in quotes of rules that are built. A draft takes any text as the value of a string, of a
meta entry or of a literal in the condition, and as an alphabet. The rule has one string token for
each, in the order of the draft, and the lexer reads its text back as one token of the same
meaning, whatever stands behind it. -/

namespace YaraRules

open TokenStream (Plain)

/-- A text between quotes, with escape sequences where it needs them. -/
def Text.inQuotes (text : String) : String := "\"" ++ Text.escape text ++ "\""

/-! ### Texts of drafts -/

/-- Texts of a condition, in the order in which they are written. -/
def ConditionDraft.texts : ConditionDraft → List String
  | string value => [value]
  | integer _ | hexInteger _ | float _ | boolean _ | regexp .. | name _ | word _ | stringUse .. | nothing _ => []
  | indexed _ _ e | paren e _ | integerFunction _ e | unary _ e | field e _ | percent e => e.texts
  | range one two | binary _ one two _ | index one two | located one two | confined one two | of one two =>
    one.texts ++ two.texts
  | set elements => textsAll elements
  | forIn quantifier _ iterable body => quantifier.texts ++ iterable.texts ++ body.texts
  | forOf quantifier members body => quantifier.texts ++ members.texts ++ body.texts
  | call function args => function.texts ++ textsAll args
where
  textsAll : List ConditionDraft → List String
    | [] => []
    | e :: rest => e.texts ++ textsAll rest

/-- The alphabet of a modifier, if it has one of its own. -/
def ModifierKind.texts : ModifierKind → List String
  | base64 alphabet | base64wide alphabet => alphabet.toList
  | _ => []

def ContentDraft.texts : ContentDraft → List String
  | plain text => [text]
  | hex _ | regexp .. => []

def StringDraft.texts (draft : StringDraft) : List String :=
  draft.content.texts ++ draft.modifiers.flatMap ModifierKind.texts

/-- The text of a value that is written in quotes. -/
def metaTexts (entry : String × TokenKind × Literal) : List String :=
  if entry.2.1 = .string then entry.2.2.asText?.toList else []

/-- Texts of the meta section, of the strings section and of the condition. -/
def RuleDraft.texts (draft : RuleDraft) : List String :=
  draft.metas.flatMap metaTexts ++ draft.strings.flatMap StringDraft.texts ++ draft.condition.texts

/-! ### What is written -/

/-- Literals of the string tokens, in their order. -/
def TokenStream.quotes (s : TokenStream) : List Literal :=
  ((s.view.map (·.2.1)).filter (·.kind == .string)).map (·.literal)

/-- A step writes the texts in quotes, in this order, and no others. -/
def Quotes {α : Type} (step : Emit α) (texts : List String) : Prop :=
  ∀ s a s', s.Drafted → step s = .ok (a, s') → s'.Drafted ∧ s'.quotes = s.quotes ++ texts.map Literal.ofText

namespace Quotes

variable {α β : Type} {step : Emit α} {next : α → Emit β} {texts more : List String}

theorem pure {a : α} : Quotes (pure a) [] := by
  intro s b s' drafted done
  cases done
  exact ⟨drafted, (List.append_nil _).symm⟩

theorem never (never : Never step) : Quotes step texts := fun s a s' _ done => absurd done (never s a s')

theorem bind (first : Quotes step texts) (rest : ∀ a, Quotes (next a) more) :
    Quotes (step >>= next) (texts ++ more) := by
  intro s b s'' drafted done
  obtain ⟨a, s', found, run⟩ := bind_done done
  obtain ⟨drafted', written⟩ := first s a s' drafted found
  obtain ⟨drafted'', written'⟩ := rest a s' b s'' drafted' run
  exact ⟨drafted'', by rw [written', written, List.map_append, List.append_assoc]⟩

/-- A step without texts is followed by others. -/
theorem skip (first : Quotes step []) (rest : ∀ a, Quotes (next a) texts) :
    Quotes (step >>= next) texts := first.bind rest

/-- The texts are written, and nothing follows. -/
theorem last (first : Quotes step texts) (rest : ∀ a, Quotes (next a) []) : Quotes (step >>= next) texts := by
  simpa using first.bind rest

theorem map {f : α → β} (quotes : Quotes step texts) : Quotes (f <$> step) texts := by
  intro s b s' drafted done
  obtain ⟨a, found, _⟩ := map_done done
  exact quotes s a s' drafted found

theorem ite {c : Prop} [Decidable c] {other : Emit α} (yes : Quotes step texts) (no : Quotes other texts) :
    Quotes (if c then step else other) texts := by
  split_ifs
  · exact yes
  · exact no

private theorem put_written {token : Token} (plain : Plain token) {s s' : TokenStream} {h : Handle}
    (drafted : s.Drafted) (done : Emit.put token s = .ok (h, s')) : s'.Drafted ∧
    s'.quotes = s.quotes ++ (([token].filter (·.kind == .string)).map (·.literal)) := by
  obtain ⟨rfl, rfl⟩ : (s.push token).1 = h ∧ (s.push token).2 = s' := by
    have run : Except.ok (s.push token) = .ok (h, s') := done
    simpa [Prod.ext_iff] using run
  obtain ⟨_, view, _⟩ := drafted.sound.push token
  exact ⟨drafted.push plain, by simp [TokenStream.quotes, view]⟩

theorem put {token : Token} (other : token.kind ≠ .string) (plain : Plain token) : Quotes (Emit.put token) [] := by
  intro s h s' drafted done
  obtain ⟨drafted', written⟩ := put_written plain drafted done
  exact ⟨drafted', by simpa [other] using written⟩

theorem text {token : Token} {text : String} (kind : token.kind = .string) (literal : token.literal = .ofText text) :
    Quotes (Emit.put token) [text] := by
  intro s h s' drafted done
  obtain ⟨drafted', written⟩ := put_written (show Plain token by rw [Plain, literal]; rfl) drafted done
  exact ⟨drafted', by simpa [kind, literal] using written⟩

theorem fixed {kind : TokenKind} (other : kind ≠ .string) : Quotes (Emit.fixed kind) [] := put other rfl

theorem newline : Quotes Emit.newline [] := .skip (.fixed (by decide)) fun _ => .pure

theorem literal {kind : TokenKind} (other : kind ≠ .string) {value : Literal} (plain : value.aliasTarget? = none) :
    Quotes (Emit.literal kind value) [] :=
  put other plain

end Quotes

namespace ConditionDraft

open Quotes

private theorem atomOf_quotes {kind : TokenKind} (other : kind ≠ .string) {literal : Literal}
    (plain : literal.aliasTarget? = none) (type : ValueType)
    (atom : AtomKind) : Quotes (atomOf kind literal type atom) [] :=
  .skip (.literal other plain) fun _ => .pure

private theorem check_quotes {c : Prop} [Decidable c] (e : DraftError) :
    Quotes (if c then Pure.pure () else throw e) [] :=
  .ite .pure (.never .throw)

private theorem checkNames_quotes : ∀ vars : List String, Quotes (vars.forM checkName) []
  | [] => .pure
  | _ :: rest => .skip (check_quotes _) fun _ => checkNames_quotes rest

private theorem emitVars_quotes : ∀ vars, Quotes (emitVars vars) []
  | [] => .pure
  | [_] => .skip (.literal (by decide) rfl) fun _ => .pure
  | _ :: other :: rest =>
    .skip (.literal (by decide) rfl) fun _ => .skip (.fixed (by decide))
      fun _ => .skip (emitVars_quotes (other :: rest)) fun _ => .pure

private theorem refused_quotes (operation : String) (operand : Expr) :
    Quotes (do throw (.invalidOperand operation (← textNow operand)) : Emit Expr) [] :=
  .never fun _ _ _ done => by cases done

private theorem placed_quotes (operation : String) (operand place : Expr) (keyword : Handle)
    (ofString ofCount : Handle → Option Expr) : Quotes (placed operation operand keyword place ofString ofCount)
    [] := by
  unfold placed
  dsimp only
  split
  next id =>
    cases ofString id with
    | none => exact refused_quotes _ _
    | some e => exact .pure
  next id =>
    cases ofCount id with
    | none => exact refused_quotes _ _
    | some e => exact .pure
  next => exact .pure
  next => exact refused_quotes _ _

private theorem inParens_quotes {step : Emit Expr} {texts : List String} (quotes : Quotes step texts) (already : Bool) :
    Quotes (inParens already step) texts :=
  .ite quotes (.skip (.fixed (by decide)) fun _ => quotes.last fun _ => .skip (.fixed (by decide)) fun _ => .pure)

mutual

private theorem emit_quotes : ∀ draft : ConditionDraft, Quotes draft.emit draft.texts
  | string value => by
    rw [emit, texts]
    exact .last (.text rfl rfl) fun _ => .pure
  | integer _ | float _ | boolean _ => by
    rw [emit, texts]
    exact atomOf_quotes (by decide) rfl _ _
  | hexInteger value => by
    rw [emit, texts]
    exact atomOf_quotes (by decide) (hexLiteral_plain value) _ _
  | regexp _ _ => by
    rw [emit, texts]
    split
    · exact .skip (.literal (by decide) rfl) fun _ => .pure
    · exact .never .throw
  | name _ => by
    rw [emit, texts]
    exact .skip (check_quotes _) fun _ => atomOf_quotes (by decide) rfl _ _
  | word w => by
    rw [emit, texts]
    exact .skip (.fixed (by cases w <;> decide)) fun _ => .pure
  | stringUse use _ => by
    rw [emit, texts]
    exact .skip (check_quotes _) fun _ => atomOf_quotes (by cases use <;> decide) rfl _ _
  | nothing _ => by
    rw [emit]
    exact .never .throw
  | indexed measured _ i => by
    rw [emit, texts]
    refine .skip (check_quotes _) fun _ => .skip (.literal (by cases measured <;> decide) rfl) fun _ => ?_
    exact .skip (.fixed (by decide)) fun _ => .last (emit_quotes i) fun _ => .skip (.fixed (by decide)) fun _ => .pure
  | paren inner block => by
    rw [emit, texts]
    cases block with
    | false =>
      exact .skip (.fixed (by decide)) fun _ => .last (emit_quotes inner)
        fun _ => .skip (.fixed (by decide)) fun _ => .pure
    | true =>
      refine .skip (.put (by decide) rfl) fun _ => .skip .newline fun _ => .last (emit_quotes inner) fun _ => ?_
      exact .skip .newline fun _ => .skip (.fixed (by decide)) fun _ => .pure
  | range low high => by
    rw [emit, texts]
    refine .skip (.fixed (by decide)) fun _ => .bind (emit_quotes low) fun _ => .skip (.fixed (by decide)) fun _ => ?_
    exact .last (emit_quotes high) fun _ => .skip (.fixed (by decide)) fun _ => .pure
  | set elements => by
    rw [emit, texts]
    exact .skip (.fixed (by decide)) fun _ => .last (emitAll_quotes false elements)
      fun _ => .skip (.fixed (by decide)) fun _ => .pure
  | integerFunction _ arg => by
    rw [emit, texts]
    refine .ite (.never (.bind .throw _)) (.skip (.literal (by decide) rfl) fun _ => ?_)
    exact .skip (.fixed (by decide)) fun _ => .last (emit_quotes arg) fun _ => .skip (.fixed (by decide)) fun _ => .pure
  | forIn quantifier vars iterable body => by
    rw [emit, texts, List.append_assoc]
    refine .skip (checkNames_quotes vars) fun _ => .skip (.fixed (by decide))
      fun _ => .bind (emit_quotes quantifier) fun _ => ?_
    refine .skip (emitVars_quotes vars) fun _ => .skip (.fixed (by decide))
      fun _ => .bind (emit_quotes iterable) fun _ => ?_
    exact .skip (.fixed (by decide)) fun _ => .last (inParens_quotes (emit_quotes body) _) fun _ => .pure
  | forOf quantifier members body => by
    rw [emit, texts, List.append_assoc]
    refine .skip (.fixed (by decide)) fun _ => .bind (emit_quotes quantifier)
      fun _ => .skip (.fixed (by decide)) fun _ => ?_
    refine .bind (emit_quotes members) fun _ => .skip (.fixed (by decide)) fun _ => ?_
    exact .last (inParens_quotes (emit_quotes body) _) fun _ => .pure
  | unary op operand => by
    rw [emit, texts]
    exact .skip (.fixed (by cases op <;> decide)) fun _ => .last (emit_quotes operand) fun _ => .pure
  | binary op left right newline => by
    rw [emit, texts]
    refine .bind (emit_quotes left) fun _ => .skip (.fixed (by cases op <;> decide)) fun _ => ?_
    cases newline with
    | false => exact .last (emit_quotes right) fun _ => .pure
    | true => exact .skip .newline fun _ => .last (emit_quotes right) fun _ => .pure
  | field structure_ _ => by
    rw [emit, texts]
    refine .skip (check_quotes _) fun _ => .last (emit_quotes structure_) fun _ => ?_
    exact .skip (.fixed (by decide)) fun _ => .skip (.literal (by decide) rfl) fun _ => .pure
  | index array i => by
    rw [emit, texts]
    refine .bind (emit_quotes array) fun _ => .skip (.fixed (by decide)) fun _ => ?_
    exact .last (emit_quotes i) fun _ => .skip (.fixed (by decide)) fun _ => .pure
  | call function args => by
    rw [emit, texts]
    refine .bind (emit_quotes function) fun _ => .skip (.fixed (by decide)) fun _ => ?_
    exact .last (emitAll_quotes false args) fun _ => .skip (.fixed (by decide)) fun _ => .pure
  | located operand offset => by
    rw [emit, texts]
    refine .bind (emit_quotes operand) fun _ => .skip (.fixed (by decide)) fun _ => ?_
    exact .last (emit_quotes offset) fun _ => placed_quotes _ _ _ _ _ _
  | confined operand bounds => by
    rw [emit, texts]
    refine .bind (emit_quotes operand) fun _ => .skip (.fixed (by decide))
      fun _ => .last (emit_quotes bounds) fun e => ?_
    cases e
    case range => exact placed_quotes _ _ _ _ _ _
    all_goals exact refused_quotes _ _
  | percent operand => by
    rw [emit, texts]
    exact .last (emit_quotes operand) fun _ => .skip (.fixed (by decide)) fun _ => .pure
  | of quantifier members => by
    rw [emit, texts]
    refine .bind (emit_quotes quantifier) fun _ => .skip (.fixed (by decide)) fun _ => ?_
    exact .last (emit_quotes members) fun _ => .pure

private theorem emitAll_quotes (comma : Bool) : ∀ drafts, Quotes (emitAll comma drafts) (texts.textsAll drafts)
  | [] => by
    rw [emitAll, texts.textsAll]
    exact .pure
  | e :: rest => by
    rw [emitAll, texts.textsAll]
    have items : Quotes (do
        let first ← e.emit
        return first :: (← emitAll true rest)) (e.texts ++ texts.textsAll rest) :=
      .bind (emit_quotes e) fun _ => .last (emitAll_quotes true rest) fun _ => .pure
    exact .ite (.skip (.fixed (by decide)) fun _ => items) items

end

end ConditionDraft

/-! ### Hex strings -/

namespace HexDraft

open Quotes

private theorem emitByte_quotes (text : List Char) : Quotes (emitByte text) [] :=
  .skip (.literal (by decide) rfl) fun _ => .pure

private theorem emitBound_quotes (value : Option UInt64) : Quotes (emitBound value) [] := by
  cases value with
  | none => exact .pure
  | some value => exact .skip (.literal (by decide) rfl) fun _ => .pure

private theorem emitJump_quotes (low : Option UInt64) (ranged : Bool) (high : Option UInt64) :
    Quotes (emitJump low ranged high) [] := by
  refine .skip (.fixed (by decide)) fun opening => .skip (emitBound_quotes low) fun low => ?_
  have rest (dash : Option Handle) : Quotes (do
      let high ← emitBound high
      let closing ← Emit.fixed .hexJumpClose
      return HexUnit.jump opening low dash high closing) [] :=
    .skip (emitBound_quotes high) fun _ => .skip (.fixed (by decide)) fun _ => .pure
  exact .ite (.skip (.map (.fixed (by decide))) rest) (.skip .pure rest)

mutual

private theorem emit_quotes : ∀ draft : HexDraft, Quotes draft.emit []
  | byte _ | anyByte | lowNibble _ | highNibble _ | otherByte _ => by
    rw [emit]
    exact emitByte_quotes _
  | jump _ | jumpBetween _ _ | jumpFrom _ | jumpAny => by
    rw [emit]
    exact emitJump_quotes _ _ _
  | alternation alternatives => by
    rw [emit]
    refine .skip (.fixed (by decide)) fun _ => .skip (emitAlternatives_quotes false alternatives) fun _ => ?_
    exact .skip (.fixed (by decide)) fun _ => .pure

private theorem emitAll_quotes : ∀ drafts, Quotes (emitAll drafts) []
  | [] => by
    rw [emitAll]
    exact .pure
  | unit :: rest => by
    rw [emitAll]
    exact .skip (emit_quotes unit) fun _ => .skip (emitAll_quotes rest) fun _ => .pure

private theorem emitAlternatives_quotes (bar : Bool) : ∀ drafts, Quotes (emitAlternatives bar drafts) []
  | [] => by
    rw [emitAlternatives]
    exact .pure
  | units :: rest => by
    rw [emitAlternatives]
    have units : Quotes (do
        let first ← emitAll units
        return first :: (← emitAlternatives true rest)) [] :=
      .skip (emitAll_quotes units) fun _ => .skip (emitAlternatives_quotes true rest) fun _ => .pure
    exact .ite (.skip (.fixed (by decide)) fun _ => units) units

end

private theorem emitString_quotes (units : List HexDraft) : Quotes (emitString units) [] := by
  unfold emitString
  split
  · exact .never .throw
  · exact .skip (.fixed (by decide)) fun _ => .skip (emitAll_quotes units)
      fun _ => .skip (.fixed (by decide)) fun _ => .pure

end HexDraft

/-! ### Rules -/

namespace RuleDraft

open Quotes

private theorem emitTokens_quotes :
    ∀ {words : List (TokenKind × Literal)}, (∀ word ∈ words, word.1 ≠ .string ∧ word.2.aliasTarget? = none) →
    Quotes (emitTokens words) []
  | [], _ => .pure
  | (_, _) :: _, words => by
    rw [List.forall_mem_cons] at words
    exact .skip (.literal words.1.1 words.1.2) fun _ => .skip (emitTokens_quotes words.2) fun _ => .pure

private theorem emitSection_quotes {kind : TokenKind} (other : kind ≠ .string) : Quotes (emitSection kind) [] :=
  .skip (.fixed other) fun _ => .skip (.fixed (by decide)) fun _ => .skip .newline fun _ => .pure

private theorem emitComments_quotes (comments : List String) : Quotes (emitComments comments) [] := by
  unfold emitComments
  split
  · exact .newline
  · rename_i comments _
    have each : ∀ comments : List String, Quotes (comments.forM fun comment => do
        let _ ← Emit.written .lineComment ("// " ++ comment)
        Emit.newline) [] := fun comments => by
      induction comments with
      | nil => exact .pure
      | cons comment rest ih => exact .skip (.skip (.literal (by decide) rfl) fun _ => .newline) fun _ => ih
    exact each _

private theorem emitMetas_quotes : ∀ {metas : List (String × TokenKind × Literal)}, (∀ entry ∈ metas, Valued entry.2) →
    Quotes (emitMetas metas) (metas.flatMap metaTexts)
  | [], _ => .pure
  | (_, _, _) :: _, valued => by
    rw [List.forall_mem_cons] at valued
    refine .skip (.literal (by decide) rfl) fun _ => .skip (.fixed (by decide)) fun _ => ?_
    have rest := emitMetas_quotes valued.2
    cases valued.1 with
    | text value => exact .bind (.text rfl rfl) fun _ => .skip .newline fun _ => rest.last fun _ => .pure
    | int | uint | hex | bool =>
      exact .skip (.literal (by decide) rfl) fun _ => .skip .newline fun _ => rest.last fun _ => .pure

private theorem emitAlphabet_quotes {kind : TokenKind} (other : kind ≠ .string) (alphabet : Option String) :
    Quotes (emitAlphabet kind alphabet) alphabet.toList := by
  refine .skip (.fixed other) fun _ => ?_
  cases alphabet with
  | none => exact .pure
  | some alphabet =>
    exact .skip (.fixed (by decide)) fun _ => .last (.text rfl rfl) fun _ => .skip (.fixed (by decide)) fun _ => .pure

private theorem emitModifierTokens_quotes (modifier : ModifierKind) :
    Quotes (emitModifierTokens modifier) modifier.texts := by
  have single {kind : TokenKind} (other : kind ≠ .string) :
      Quotes (do let token ← Emit.fixed kind; return (token, token)) [] :=
    .skip (.fixed other) fun _ => .pure
  unfold emitModifierTokens
  cases modifier with
  | ascii | wide | nocase | fullword | privately => exact single (by decide)
  | base64 alphabet | base64wide alphabet => exact emitAlphabet_quotes (by decide) alphabet
  | xor keys =>
    cases keys with
    | none => exact single (by decide)
    | some keys =>
      have key (value : UInt8) : Quotes (do
          let _ ← Emit.literal .integer (.ofInt (Int64.ofNat value.toNat))) [] :=
        .skip (.literal (by decide) rfl) fun _ => .pure
      refine .skip (.fixed (by decide)) fun first => .skip (.fixed (by decide)) fun _ => .skip (key keys.1) fun _ => ?_
      have close : Quotes (do return (first, ← Emit.fixed .closeParen)) [] := .skip (.fixed (by decide)) fun _ => .pure
      exact .ite (.skip (.fixed (by decide)) fun _ => .skip (key keys.2) fun _ => close) close

private theorem emitModifiers_quotes : ∀ kinds, Quotes (emitModifiers kinds) (kinds.flatMap ModifierKind.texts)
  | [] => .pure
  | kind :: rest => .bind (emitModifierTokens_quotes kind) fun _ => (emitModifiers_quotes rest).last fun _ => .pure

private theorem emitContent_quotes (content : ContentDraft) : Quotes (emitContent content) content.texts := by
  cases content with
  | plain text => exact .last (.text rfl rfl) fun _ => .pure
  | hex units => exact .skip (HexDraft.emitString_quotes units) fun _ => .pure
  | regexp text regexp => exact .skip (.literal (by decide) rfl) fun _ => .pure

private theorem emitString_quotes (draft : StringDraft) : Quotes (emitString draft) draft.texts :=
  .skip (.literal (by decide) rfl) fun _ => .skip (.fixed (by decide))
    fun _ => .bind (emitContent_quotes draft.content) fun _ =>
    (emitModifiers_quotes draft.modifiers).last fun _ => .pure

private theorem emitStrings_quotes : ∀ (drafts : List StringDraft) (strings : NameTrie StringDefinition),
    Quotes (emitStrings strings drafts) (drafts.flatMap StringDraft.texts)
  | [], _ => .pure
  | draft :: rest, _ => .bind (emitString_quotes draft) fun _ => .skip .newline fun _ => emitStrings_quotes rest _

private theorem choose_quotes {α β : Type} {c : Prop} [Decidable c] {step other : Emit α} {next : α → Emit β}
    {texts : List String} (yes : Quotes step []) (no : Quotes other [])
    (rest : ∀ a, Quotes (next a) texts) : Quotes (if c then step >>= next else other >>= next) texts :=
  .ite (.skip yes rest) (.skip no rest)

private theorem emit_quotes (draft : RuleDraft) (valued : ∀ entry ∈ draft.metas, Valued entry.2) (name : String) :
    Quotes (draft.emit name) draft.texts := by
  unfold emit
  refine .skip (emitTokens_quotes (List.forall_mem_map.mpr fun kind member => ⟨?_, rfl⟩)) fun modifiers => ?_
  · rintro rfl
    cases draft.isGlobal <;> cases draft.isPrivate <;> simp at member
  refine .skip (.fixed (by decide)) fun keyword => .skip (.literal (by decide) rfl) fun nameToken => ?_
  refine choose_quotes .pure (.map (.fixed (by decide))) fun tagColon => ?_
  refine .skip (emitTokens_quotes (List.forall_mem_map.mpr fun _ _ => ⟨nofun, rfl⟩)) fun tags => ?_
  refine .skip (.fixed (by decide)) fun opening => .skip (emitComments_quotes draft.comments) fun _ => ?_
  refine choose_quotes .pure (.map (emitSection_quotes (by decide))) fun metaSection => ?_
  rw [texts, List.append_assoc]
  refine .bind (emitMetas_quotes valued) fun metas => ?_
  refine choose_quotes .pure (.map (emitSection_quotes (by decide))) fun stringSection => ?_
  refine .bind (emitStrings_quotes draft.strings {}) fun strings => .skip (emitSection_quotes (by decide))
    fun conditionSection => ?_
  exact .last draft.condition.emit_quotes fun condition => .skip .newline fun _ => .skip (.fixed (by decide))
    fun closing => .pure

end RuleDraft

/-! ### What is read -/

namespace Lexer

/-- A text is one token wherever it stands, a string that passes the check of its escape sequences and means
these bytes. -/
def ReadsString (written : String) (bytes : Bytes) : Prop :=
  ∀ file s rest, s.Left (Bytes.ofText written ++ rest) → ∃ token s', step file s = .found token s' ∧ s'.Left rest ∧
    token.kind = .string ∧ (∃ text, token.literal = .ofWritten text ∧ Text.unescape text = .ok bytes) ∧
      token.literal.meaning = bytes

private theorem readsString_inQuotes (text : String) : ReadsString (Text.inQuotes text) (Bytes.ofText text) := by
  intro file s rest left
  have found : step file s = _ := step_at left (lexeme_string text rest) (if_neg (by simp)) (makeToken_string text _)
  refine ⟨_, _, found, ⟨rfl, rfl⟩, rfl, ⟨_, rfl, Text.unescape_escape text⟩, ?_⟩
  simp [Literal.meaning, Literal.ofWritten, Text.unescape_escape]

end Lexer

private theorem Text.escape_line (text : String) : ∀ c ∈ (Text.escape text).toList, c ≠ '\n' ∧ c ≠ '\r' := by
  intro c member
  rw [Text.escape, String.toList_ofList, List.mem_flatMap] at member
  obtain ⟨d, _, member⟩ := member
  exact Text.escapeChar_line d c member

/-- Handles of the string tokens, in their order. -/
def TokenStream.strings (s : TokenStream) : List Handle := (s.view.filter (·.2.1.kind == .string)).map (·.1)

private theorem TokenStream.Drafted.texts_strings {s : TokenStream} (drafted : s.Drafted) {texts : List String}
    (written : s.quotes = texts.map Literal.ofText) : s.strings.map s.text = texts.map Text.inQuotes := by
  have told : ∀ piece ∈ s.view, piece.2.1.kind == .string → s.text piece.1 = "\"" ++
      piece.2.1.literal.text ++ "\"" := by
    intro piece member kind
    have stored := (drafted.sound.get?_view (by simp [drafted.ids])).mpr ⟨piece, member, .inl ⟨rfl, rfl⟩⟩
    rw [text_eq s stored, textOf_plain s (drafted.plain piece member), beq_iff_eq.mp kind]
    rfl
  have literals : s.quotes.map (fun literal => "\"" ++ literal.text ++ "\"") = s.strings.map s.text := by
    rw [TokenStream.quotes, TokenStream.strings, List.filter_map, List.map_map, List.map_map, List.map_map]
    refine List.map_congr_left fun piece member => ?_
    obtain ⟨inside, kind⟩ := List.mem_filter.mp member
    exact (told piece inside kind).symm
  rw [← literals, written, List.map_map]
  rfl

namespace RuleDraft

/-- A rule that is built has a string token for each text of its draft, in the same order. The lexer reads
each of them back as one string, whatever follows it, and the string means the bytes of the text; nothing in
it ends the line. -/
theorem texts_read_back {id : ChainId} {draft : RuleDraft} (filled : draft.Filled) {rule : Detached Rule}
    (done : draft.build id = .ok rule) :
    rule.tokens.strings.map rule.tokens.text = draft.texts.map Text.inQuotes ∧
      ∀ text ∈ draft.texts, Lexer.ReadsString (Text.inQuotes text) (Bytes.ofText text) ∧
        ∀ c ∈ (Text.escape text).toList, c ≠ '\n' ∧ c ≠ '\r' := by
  obtain ⟨name, found⟩ := build_done done
  obtain ⟨drafted, written⟩ := draft.emit_quotes filled.valued name _ _ _ (TokenStream.drafted_empty id) found
  exact ⟨drafted.texts_strings written, fun text _ => ⟨Lexer.readsString_inQuotes text, Text.escape_line text⟩⟩

/-- A draft of a rule with a text in each place: `"` in the meta section, a line break in a string, and a
backslash in the condition. -/
def quotedDraft : RuleDraft :=
  (((withName {} "r").withStringMeta "m" "\"").withPlain "$s" "\n").withCondition
    (.binary .matches (.string "\\") (.string "x") false)

theorem texts_read_back_quoted : ∃ rule : Detached Rule, quotedDraft.build 1 = .ok rule ∧
    rule.tokens.strings.map rule.tokens.text = ["\"\\\"\"", "\"\\n\"", "\"\\\\\"", "\"x\""] ∧
    Lexer.ReadsString "\"\\\"\"" [0x22] := by
  have filled : quotedDraft.Filled := .withCondition _ (.withString _ _ (.withStringMeta _ _ (.withName "r" .new)))
  have some : (quotedDraft.build 1).toOption.isSome := by decide +kernel
  cases done : quotedDraft.build 1 with
  | error e => simp [done, Except.toOption] at some
  | ok rule =>
    obtain ⟨strings, reads⟩ := texts_read_back filled done
    have texts : quotedDraft.texts = ["\"", "\n", "\\", "x"] := by decide +kernel
    rw [texts] at strings reads
    exact ⟨rule, rfl, strings.trans (by decide +kernel), (reads "\"" (by simp)).1⟩

end RuleDraft

end YaraRules
