import YaraRules.Proofs.PairedSteps
import YaraRules.Proofs.ReadImports
import YaraRules.Proofs.WrittenLiterals

/-! Entries of a meta section that are read back. The text of an entry gives three tokens, or
four if its value is a negative number, and the grammar makes of them an entry with
the same key and the same value. -/

namespace YaraRules

namespace Lexer

variable {file : Option String} {s s' : State} {token : Token} {bytes rest : Bytes} {kind : TokenKind}
    {literal : Literal}

/-! ### Tokens one after the other -/

/-- Tokens from a state on. -/
def lexed (file : Option String) (s : State) : Except ParseError (List Token) := tokensFrom file s.rest.length s

private theorem lexed_shortened (shorter : s'.rest.length < s.rest.length) :
    ∃ n, lexed file s = tokensFrom file (n + 1) s ∧ s.rest.isEmpty = false ∧ lexed file s' = tokensFrom file n s' := by
  obtain ⟨n, more⟩ : ∃ n, s.rest.length = n + 1 := ⟨s.rest.length - 1, by omega⟩
  refine ⟨n, by rw [lexed, more], ?_, tokensFrom_enough file _ n s' (Nat.le_refl _) (by omega)⟩
  cases rest : s.rest with
  | nil => simp [rest] at more
  | cons => rfl

theorem lexed_found (found : step file s = .found token s') : lexed file s = (lexed file s').map (token :: ·) := by
  obtain ⟨n, here, some, there⟩ := @lexed_shortened file s s' (step_shortens (.inr ⟨token, found⟩))
  rw [here, there, tokensFrom, some, found]
  show (tokensFrom file n s' >>= fun words => Except.ok (token :: words)) = _
  cases tokensFrom file n s' <;> rfl

theorem lexed_skipped (passed : step file s = .skipped s') : lexed file s = lexed file s' := by
  obtain ⟨n, here, some, there⟩ := @lexed_shortened file s s' (step_shortens (.inl passed))
  rw [here, there, tokensFrom, some, passed]
  rfl

/-- Some bytes are left in a mode. -/
structure State.At (s : State) (mode : Mode) (rest : Bytes) : Prop where
  rest : s.rest = rest
  mode : s.mode = mode

/-- Some bytes of normal mode are left. -/
abbrev State.Left (s : State) (rest : Bytes) : Prop := s.At .normal rest

theorem lexed_nil (left : s.Left []) : lexed file s = .ok [] := by
  rw [lexed, left.rest]
  rfl

/-- A word is found, and what is behind it is left. A brace behind an equal sign is the first of a hex string. -/
theorem step_at {mode : Mode} {found : TokenKind} (left : s.At mode (bytes ++ rest))
    (here : lexeme? mode (bytes ++ rest) = some (.token found, bytes.length))
    (role : (if found == .openBrace && s.last == some .assign then .hexStart else found) = kind)
    (made : makeToken kind bytes (locate file s.position bytes).1 = .ok token) :
    step file s = .found token
      ⟨rest, modeAfter mode kind, (locate file s.position bytes).2, if kind.isTrivia then s.last else some kind⟩ := by
  have outwards : lexemeOutwards s.mode s.rest = (mode, some (.token found, bytes.length)) := by
    rw [left.rest, left.mode, lexemeOutwards, here]
  rw [step, outwards]
  simp only [left.rest, List.take_left, List.drop_left, role, made]

theorem lexed_at {mode : Mode} {found : TokenKind} (left : s.At mode (bytes ++ rest))
    (here : lexeme? mode (bytes ++ rest) = some (.token found, bytes.length))
    (role : (if found == .openBrace && s.last == some .assign then .hexStart else found) = kind)
    (made : ∀ location, makeToken kind bytes location = .ok { kind, location, literal }) :
    ∃ location s', s'.At (modeAfter mode kind) rest ∧ s'.last = (if kind.isTrivia then s.last else some kind) ∧
      lexed file s = (lexed file s').map ({ kind, location, literal } :: ·) :=
  ⟨_, _, ⟨rfl, rfl⟩, rfl, lexed_found (step_at left here role (made _))⟩

/-- A word of normal mode that does not leave it. -/
theorem lexed_word (left : s.Left (bytes ++ rest))
    (found : lexeme? .normal (bytes ++ rest) = some (.token kind, bytes.length))
    (plain : kind ≠ .openBrace ∧ modeAfter .normal kind = .normal)
    (made : ∀ location, makeToken kind bytes location = .ok { kind, location, literal }) : ∃ location s', s'.Left rest ∧
    lexed file s = (lexed file s').map ({ kind, location, literal } :: ·) := by
  obtain ⟨location, s', left', _, whole⟩ := lexed_at left found (if_neg (by simp [plain.1])) made
  rw [plain.2] at left'
  exact ⟨location, s', left', whole⟩

private theorem step_blanks (file : Option String) {mode : Mode} (left : s.At mode (bytes ++ rest))
    (found : lexeme? mode (bytes ++ rest) = some (.blank, bytes.length)) :
    ∃ s', s'.At mode rest ∧ s'.last = s.last ∧ step file s = .skipped s' := by
  have outwards : lexemeOutwards s.mode s.rest = (mode, some (.blank, bytes.length)) := by
    rw [left.rest, left.mode, lexemeOutwards, found]
  refine ⟨{ s with rest, mode, position := s.position.after bytes }, ⟨rfl, rfl⟩, rfl, ?_⟩
  rw [step, outwards]
  simp [left.rest]

theorem lexed_blanks {mode : Mode} (left : s.At mode (bytes ++ rest))
    (found : lexeme? mode (bytes ++ rest) = some (.blank, bytes.length)) : ∃ s', s'.At mode rest ∧ s'.last = s.last ∧
    lexed file s = lexed file s' := by
  obtain ⟨s', left', last, passed⟩ := step_blanks file left found
  exact ⟨s', left', last, lexed_skipped passed⟩

theorem step_blank (file : Option String) {mode : Mode} (left : s.At mode (0x20 :: rest))
    (found : lexeme? mode (0x20 :: rest) = some (.blank, 1)) : ∃ s', s'.At mode rest ∧ s'.last = s.last ∧
    step file s = .skipped s' :=
  @step_blanks s [0x20] rest file mode left found

theorem lexed_blank_at {mode : Mode} (left : s.At mode (0x20 :: rest))
    (found : lexeme? mode (0x20 :: rest) = some (.blank, 1)) : ∃ s', s'.At mode rest ∧ s'.last = s.last ∧
    lexed file s = lexed file s' :=
  @lexed_blanks file s [0x20] rest mode left found

theorem lexed_blank (left : s.Left (0x20 :: rest)) (black : ∀ b ∈ rest.head?, isWhite b = false) :
    ∃ s', s'.Left rest ∧ lexed file s = lexed file s' := by
  obtain ⟨s', left', _, whole⟩ := lexed_blank_at left (lexeme_blank black)
  exact ⟨s', left', whole⟩

/-! ### Values -/

theorem ofText_append (text other : String) :
    Bytes.ofText (text ++ other) = Bytes.ofText text ++ Bytes.ofText other := by
  simp [Bytes.ofText, Utf8.encode]

private theorem makeToken_integer (small : n < UInt64.size) (location : Location) :
    makeToken .integer (Bytes.ofText (toString n)) location =
    .ok { kind := .integer, location,
          literal := if n < Literal.signedLimit then Literal.ofInt (Int64.ofNat n) else Literal.ofUInt (UInt64.ofNat n) } := by
  rw [makeToken, integerLiteral_decimal small]

theorem makeToken_string (text : String) (location : Location) :
    makeToken .string (Bytes.ofText ("\"" ++ Text.escape text ++ "\"")) location =
      .ok { kind := .string, location, literal := .ofWritten (Text.escape text) } := by
  have inner : ((Bytes.ofText ("\"" ++ Text.escape text ++ "\"")).drop 1).dropLast =
      Bytes.ofText (Text.escape text) := by
    rw [ofText_append, ofText_append]
    exact List.dropLast_concat
  rw [makeToken, inner, Text.readable_ofText]

/-- Tokens of a value that the grammar reads as the value. -/
inductive Means (value : Literal) : List Token → Prop
  | one {token : Token} (kind : token.kind ∈ [.string, .integer, .boolean]) (agrees : token.literal.Agrees value)
      (escapes : ∀ text, token.literal.asText? = some text →
      ∃ bytes, Text.unescape text = .ok bytes) : Means value [token]
  | signed {minus number : Token} {negated : Literal} (sign : minus.kind = .minus) (digits : number.kind = .integer)
      (negates : Grammar.negated? number.literal = some negated)
      (agrees : negated.Agrees value) : Means value [minus, number]

theorem Means.words {value : Literal} {tokens : List Token} (means : Means value tokens) :
    ∀ a ∈ tokens, a.kind.isTrivia = false := by
  cases means with
  | one kind _ _ =>
    simp only [List.mem_cons, List.not_mem_nil, or_false] at kind
    rcases kind with kind | kind | kind <;> simp [kind, TokenKind.isTrivia]
  | signed sign digits _ _ => simp [sign, digits, TokenKind.isTrivia]

private theorem lexed_value {value : Literal} (storable : value.Storable)
    (left : s.Left (Bytes.ofText (TokenStream.writtenAs (RuleEdit.metaValueKind value) value.text))) :
    ∃ tokens, lexed file s = .ok tokens ∧ Means value tokens := by
  rw [← List.append_nil (Bytes.ofText _)] at left
  cases storable with
  | text text =>
    obtain ⟨location, s', left', whole⟩ := lexed_word left (lexeme_string text []) (by decide) (makeToken_string text)
    refine ⟨_, whole.trans (congrArg _ (lexed_nil left')), .one (by simp) (Literal.agrees_text text) fun _ same => ?_⟩
    cases same
    exact ⟨_, Text.unescape_escape text⟩
  | bool value =>
    have made (location : Location) : makeToken .boolean (Bytes.ofText (if value then "true" else "false")) location =
        .ok { kind := .boolean, location, literal := .ofBool value } := by
      cases value <;> rfl
    obtain ⟨location, s', left', whole⟩ := lexed_word left (lexeme_boolean value loose_nil) (by decide) made
    exact ⟨_, whole.trans (congrArg _ (lexed_nil left')), .one (by simp) (.refl _) nofun⟩
  | uint value =>
    obtain ⟨digits, some, _⟩ := digits_decimal value.toNat
    obtain ⟨location, s', left', whole⟩ :=
      lexed_word left (lexeme_digits digits some loose_nil.halts) (by decide) (makeToken_integer value.toNat_lt)
    refine ⟨_, whole.trans (congrArg _ (lexed_nil left')), .one (by simp) (Literal.agrees_uint value) fun _ same => ?_⟩
    dsimp only at same
    split_ifs at same <;> cases same
  | @int value more =>
    by_cases positive : 0 ≤ value.toInt
    · obtain ⟨text, small, back⟩ := Literal.int_digits positive
      have written : TokenStream.writtenAs (RuleEdit.metaValueKind (.ofInt value)) (Literal.ofInt value).text = _ :=
        text
      rw [written] at left
      obtain ⟨digits, some, _⟩ := digits_decimal value.toInt.toNat
      obtain ⟨location, s', left', whole⟩ := lexed_word left (lexeme_digits digits some loose_nil.halts) (by decide)
        (makeToken_integer (Nat.lt_trans small (by decide)))
      rw [if_pos small, back] at whole
      exact ⟨_, whole.trans (congrArg _ (lexed_nil left')), .one (by simp) (.refl _) nofun⟩
    · obtain ⟨text, small, back⟩ := Literal.int_negated (Int.not_le.mp positive) more
      have written : TokenStream.writtenAs (RuleEdit.metaValueKind (.ofInt value)) (Literal.ofInt value).text = _ :=
        text
      rw [written, ofText_append, List.append_assoc] at left
      obtain ⟨digits, some, _⟩ := digits_decimal (-value.toInt).toNat
      have sign (location : Location) : makeToken .minus (Bytes.ofText "-") location =
          .ok { kind := .minus, location, literal := .ofWritten "-" } := rfl
      obtain ⟨location, s₁, left₁, whole₁⟩ := lexed_word left (lexeme_minus _) (by decide) sign
      obtain ⟨location', s₂, left₂, whole₂⟩ := lexed_word left₁ (lexeme_digits digits some loose_nil.halts) (by decide)
        (makeToken_integer (Nat.lt_trans small (by decide)))
      rw [if_pos small] at whole₂
      refine ⟨_, (whole₁.trans (congrArg _ whole₂)).trans (congrArg _ (congrArg _ (lexed_nil left₂))),
        .signed rfl rfl back (.refl _)⟩

private theorem value_black {value : Literal} (storable : value.Storable) : ∀ b ∈
    (Bytes.ofText (TokenStream.writtenAs (RuleEdit.metaValueKind value) value.text)).head?, isWhite b = false := by
  have number (n : Nat) : ∀ b ∈ (Bytes.ofText (toString n)).head?, isWhite b = false := fun b first =>
    (digit_lead ((digits_decimal n).1 b (List.mem_of_head? first))).2.1
  cases storable with
  | text text =>
    intro b first
    have written : TokenStream.writtenAs (RuleEdit.metaValueKind (.ofText text)) (Literal.ofText text).text = "\"" ++
      Text.escape text ++ "\"" := rfl
    rw [written, ofText_append, ofText_append] at first
    cases first
    rfl
  | bool value => cases value <;> exact fun _ first => by cases first; rfl
  | uint value => exact number value.toNat
  | @int value more =>
    have written : TokenStream.writtenAs (RuleEdit.metaValueKind (.ofInt value)) (Literal.ofInt value).text =
      (Literal.ofInt value).text := rfl
    rw [written]
    by_cases positive : 0 ≤ value.toInt
    · rw [(Literal.int_digits positive).1]
      exact number _
    · rw [(Literal.int_negated (Int.not_le.mp positive) more).1, ofText_append]
      intro b first
      cases first
      rfl

/-- The text of an entry gives a token for its key, one for the equal sign and those of its value. -/
theorem lexed_entry {key : String} (identifier : isIdentifier key = true) {value : Literal}
    (storable : value.Storable) :
    ∃ name assign more, tokens file
    (Bytes.ofText (key ++ " = " ++ TokenStream.writtenAs (RuleEdit.metaValueKind value) value.text)) =
      .ok (name :: assign :: more) ∧ name.kind = .identifier ∧ name.literal = .ofWritten key ∧ assign.kind = .assign ∧
      Means value more := by
  have start : State.Left
      { rest := Bytes.ofText (key ++ " = " ++ TokenStream.writtenAs (RuleEdit.metaValueKind value) value.text) }
      (Bytes.ofText key ++ 0x20 :: ([0x3D] ++ 0x20 ::
        Bytes.ofText (TokenStream.writtenAs (RuleEdit.metaValueKind value) value.text))) := by
    refine ⟨?_, rfl⟩
    rw [ofText_append, ofText_append, List.append_assoc]
    rfl
  have named (location : Location) : makeToken .identifier (Bytes.ofText key) location =
      .ok { kind := .identifier, location, literal := .ofWritten key } := by
    rw [makeToken, Text.readable_ofText]
    · rfl
    all_goals nofun
  have marked (location : Location) : makeToken .assign [0x3D] location =
    .ok { kind := .assign, location, literal := .ofWritten "=" } := rfl
  obtain ⟨location, s₁, left₁, whole₁⟩ :=
    lexed_word start (lexeme_identifier identifier (loose_blank _)) (by decide) named
  obtain ⟨s₂, left₂, whole₂⟩ := lexed_blank left₁ (by rintro _ ⟨⟩; rfl)
  obtain ⟨location', s₃, left₃, whole₃⟩ := lexed_word left₂ (lexeme_assign (loose_blank _)) (by decide) marked
  obtain ⟨s₄, left₄, whole₄⟩ := lexed_blank left₃ (value_black storable)
  obtain ⟨more, whole₅, means⟩ := @lexed_value file s₄ value storable left₄
  have whole := whole₁.trans (congrArg _ (whole₂.trans (whole₃.trans (congrArg _ (whole₄.trans whole₅)))))
  exact ⟨_, _, more, whole, rfl, rfl, rfl, means⟩

end Lexer

namespace Grammar

open TokenStream (Plain)

variable {s s' : State} {h key assign value minus : Handle} {rest : List Handle} {kind : TokenKind} {a b : Token}

/-! ### Reading an entry -/

theorem run_expect (waiting : s.source.rest = h :: rest) (stored : s.source.tokens.get? h = some a) :
    expect a.kind s = .ok (h, s.leave rest) := by
  have peeked : peek? s = .ok (some a.kind, s) := by
    rw [show peek? s = _ from run_peekAt 0 s, waiting]
    simp [stored]
  unfold expect
  rw [bind_ok peeked, if_pos (by simp)]
  exact run_advance waiting

private theorem metaEntry_run (waiting : s.source.rest = key :: assign :: rest)
    (name : s.source.tokens.get? key = some a) (name_kind : a.kind = .identifier)
    (mark : s.source.tokens.get? assign = some b) (mark_kind : b.kind = .assign) (apart : assign ≠ key)
    (read : metaValue ((s.leave rest).onTokens (·.setKind key .metaKey)) = .ok (value, s')) : metaEntry s =
    .ok (⟨key, assign, value⟩, s') := by
  have one := run_expect waiting name
  rw [name_kind] at one
  have renamed : (s.source.tokens.setKind key .metaKey).get? assign = some b := by
    rw [TokenStream.setKind, TokenStream.get?_modify, if_neg apart, mark]
  have two := @run_expect ((s.leave (assign :: rest)).onTokens (·.setKind key .metaKey)) assign rest b rfl renamed
  rw [mark_kind] at two
  unfold metaEntry
  rw [bind_ok one]
  have refined : refine key .metaKey (s.leave (assign :: rest)) =
    .ok ((), (s.leave (assign :: rest)).onTokens (·.setKind key .metaKey)) := rfl
  have read' : metaValue (((s.leave (assign :: rest)).onTokens (·.setKind key .metaKey)).leave rest) =
    .ok (value, s') := read
  rw [bind_ok refined, bind_ok two, bind_ok read']
  rfl

private theorem metaValue_one (waiting : s.source.rest = value :: rest) (stored : s.source.tokens.get? value = some a)
    (kind : a.kind ∈ [.string, .integer, .boolean]) (escapes : ∀ text, a.literal.asText? = some text →
    ∃ bytes, Text.unescape text = .ok bytes) : metaValue s = .ok (value, s.leave rest) := by
  have peeked : peek? s = .ok (some a.kind, s) := by
    rw [show peek? s = _ from run_peekAt 0 s, waiting]
    simp [stored]
  have taken : advance s = .ok (value, s.leave rest) := run_advance waiting
  unfold metaValue
  rw [bind_ok peeked]
  simp only [List.mem_cons, List.not_mem_nil, or_false] at kind
  rcases kind with kind | kind | kind
  · rw [kind]
    have checked : checkEscapes value (s.leave rest) = .ok ((), s.leave rest) := by
      unfold checkEscapes
      have looked : tokens (s.leave rest) = .ok (s.source.tokens, s.leave rest) := rfl
      rw [bind_ok looked, stored, Option.bind_some]
      cases text : a.literal.asText? with
      | none => rfl
      | some text' =>
        obtain ⟨bytes, read⟩ := escapes text' text
        dsimp only
        rw [read]
        rfl
    dsimp only
    rw [bind_ok taken, bind_ok checked]
    rfl
  · rw [kind]
    exact taken
  · rw [kind]
    exact taken

/-- A number with a minus sign is read as the negated number, and the sign goes if it can. -/
theorem metaValue_signed (waiting : s.source.rest = minus :: value :: rest) (sign : s.source.tokens.get? minus = some a)
    (sign_kind : a.kind = .minus)
    (number : s.source.tokens.get? value = some b) (number_kind : b.kind = .integer) {negated : Literal}
    (negates : negated? b.literal = some negated) :
    metaValue s = .ok (value, (s.leave rest).onTokens fun tokens =>
      ((tokens.setLiteral value negated).eraseOne minus).toOption.getD (tokens.setLiteral value negated)) := by
  have peeked : peek? s = .ok (some .minus, s) := by
    rw [show peek? s = _ from run_peekAt 0 s, waiting]
    simp [sign, sign_kind]
  have peeked' : peekAt? 1 s = .ok (some .integer, s) := by
    rw [show peekAt? 1 s = _ from run_peekAt 1 s, waiting]
    simp [number, number_kind]
  have one : advance s = .ok (minus, s.leave (value :: rest)) := run_advance waiting
  have two : advance (s.leave (value :: rest)) = .ok (value, s.leave rest) := run_advance rfl
  have looked : tokens (s.leave rest) = .ok (s.source.tokens, s.leave rest) := rfl
  unfold metaValue
  rw [bind_ok peeked]
  dsimp only
  rw [bind_ok peeked', if_pos (by simp)]
  unfold negativeNumber
  rw [bind_ok one, bind_ok two, bind_ok looked]
  dsimp only
  rw [number]
  simp only [Option.map_some, Option.getD_some, negates]
  have written : setLiteral value negated (s.leave rest) =
    .ok ((), (s.leave rest).onTokens (·.setLiteral value negated)) := rfl
  rw [bind_ok written]
  exact dropMinus_run minus value _

/-- Tokens of a text without comments and line breaks are read one after the other. -/
theorem sourceOf_row {id : ChainId} {path : Option String} {content : Bytes} {source : Source} {tokens : List Token}
    (done : sourceOf id path content = .ok source) (found : Lexer.tokens path content = .ok tokens)
    (words : ∀ a ∈ tokens, a.kind.isTrivia = false) :
    source.rest.Nodup ∧ source.rest.map source.tokens.get? = tokens.map some := by
  have listed : source.tokens.tokens = tokens := Except.ok.inj ((sourceOf_tokens done).symm.trans found)
  have lone := (sourceOf_fresh done).lone
  refine ⟨?_, ?_⟩
  · rw [sourceOf_words done, lone.words_entries]
    exact lone.sound.chain.handles_nodup.filter _
  · rw [sourceOf_rest done, listed, List.filter_eq_self.mpr fun a member => by rw [words a member]; rfl]

/-- Tokens of one stream that own nothing and are no aliases. -/
structure Simple (tokens : TokenStream) : Prop where
  lone : tokens.Lone
  bare : tokens.nested.map (·.1) = []
  plain : ∀ k a, tokens.get? k = some a → Plain a

namespace Simple

variable {tokens : TokenStream}

theorem own (simple : Simple tokens) (stored : tokens.get? h = some a) : h.chain = tokens.chain.id := by
  simpa [simple.lone.ids] using TokenStream.mem_ids_of_get? stored

theorem modify (simple : Simple tokens) {f : Token → Token} (own : ∀ a, Plain a → Plain (f a)) :
    Simple (tokens.modify h f) := by
  have change := simple.lone.sound.modify_butFor h f
  refine ⟨⟨change.sound, ?_⟩, change.places.trans simple.bare, fun k a stored => ?_⟩
  · rw [change.ids, simple.lone.ids, TokenStream.id_of_ids change.ids]
  · rw [TokenStream.get?_modify] at stored
    split_ifs at stored
    · obtain ⟨b, before, rfl⟩ := Option.map_eq_some_iff.mp stored
      exact own b (simple.plain h b before)
    · exact simple.plain k a stored

private theorem eraseOne_others (simple : Simple tokens) (stored : tokens.get? h = some a) {other : Handle}
    (apart : other ≠ h) : ((tokens.eraseOne h).toOption.getD tokens).get? other = tokens.get? other := by
  cases erased : tokens.eraseOne h with
  | error e => rfl
  | ok after =>
    have bare : h.index ∉ tokens.nested.map (·.1) := by simp [simple.bare]
    refine (simple.lone.sound.eraseOne_butFor (by simp [simple.lone.ids]) (simple.own stored) bare
      (fun k a held aliased => ?_) erased).1.others other apart
    exact absurd ((simple.plain k a held).symm.trans aliased) nofun

end Simple

private theorem sourceOf_simple {id : ChainId} {path : Option String} {content : Bytes} {source : Source}
    (done : sourceOf id path content = .ok source) : Simple source.tokens := by
  have lone := (sourceOf_fresh done).lone
  have untouched := sourceOf_untouched done
  refine ⟨lone, by simp [untouched.bare], fun k a stored => (untouched.get? ?_ stored).1⟩
  simpa [lone.ids] using TokenStream.mem_ids_of_get? stored

private theorem metaValue_means {written : Literal} {tokens : List Token} (means : Lexer.Means written tokens)
    (distinct : s.source.rest.Nodup)
    (row : s.source.rest.map s.source.tokens.get? = tokens.map some) (simple : Simple s.source.tokens) :
    ∃ value s' token, metaValue s = .ok (value, s') ∧ s'.source.rest = [] ∧ s'.source.tokens.get? value = some token ∧
      token.literal.Agrees written ∧ ∀ h ∉ s.source.rest, s'.source.tokens.get? h = s.source.tokens.get? h := by
  cases means with
  | @one token kind agrees escapes =>
    obtain ⟨value, waiting, held⟩ := List.map_eq_singleton_iff.mp row
    exact ⟨value, _, token, metaValue_one waiting held kind escapes, rfl, held, agrees, fun _ _ => rfl⟩
  | @signed minus number negated sign digits negates agrees =>
    obtain ⟨m, _, waiting, signed, row⟩ := List.map_eq_cons_iff.mp row
    obtain ⟨value, rfl, held⟩ := List.map_eq_singleton_iff.mp row
    have apart : value ≠ m := fun same => by simp [waiting, same] at distinct
    have changed := simple.modify (h := value) (f := fun a => { a with literal := negated })
      fun _ _ => negated_plain negates
    have lookup (h : Handle) := TokenStream.get?_modify s.source.tokens value (fun a => { a with literal := negated }) h
    have signed' := (lookup m).trans ((if_neg (Ne.symm apart)).trans signed)
    have held' := (lookup value).trans ((if_pos rfl).trans (congrArg _ held))
    -- The sign may go or stay.
    refine ⟨value, _, { number with literal := negated }, metaValue_signed waiting signed sign held digits negates, rfl,
      (changed.eraseOne_others signed' apart).trans held', agrees, fun h outside => ?_⟩
    rw [waiting, List.mem_cons, List.mem_singleton, not_or] at outside
    exact (changed.eraseOne_others signed' outside.1).trans ((lookup h).trans (if_neg outside.2))

/-- A key and a value that agrees with the written one are read from the line. -/
def ReadsBack (line key : String) (value : Literal) : Prop :=
  ∀ settings tree id, ∃ source entry s' token, sourceOf id none (Bytes.ofText line) = .ok source ∧
    metaEntry (.first settings tree source (id + 1) []) = .ok (entry, s') ∧ s'.source.rest = [] ∧
    s'.source.tokens.text entry.key = key ∧ s'.source.tokens.get? entry.value = some token ∧ token.literal.Agrees value

/-- The line of an entry is read back, whatever the key and the value are. -/
theorem entry_readsBack {key : String} (identifier : Lexer.isIdentifier key = true) {value : Literal}
    (storable : value.Storable) :
    ReadsBack (key ++ " = " ++ TokenStream.writtenAs (RuleEdit.metaValueKind value) value.text) key value := by
  intro settings tree id
  obtain ⟨name, assign, more, lexed, name_kind, name_text, mark_kind, means⟩ :=
    @Lexer.lexed_entry none key identifier value storable
  obtain ⟨source, laid⟩ := sourceOf_ok lexed id
  have simple := sourceOf_simple laid
  have words : ∀ a ∈ name :: assign :: more, a.kind.isTrivia = false := by
    rw [List.forall_mem_cons, List.forall_mem_cons, name_kind, mark_kind]
    exact ⟨rfl, rfl, means.words⟩
  obtain ⟨distinct, row⟩ := sourceOf_row laid lexed words
  obtain ⟨k, _, all, named, row⟩ := List.map_eq_cons_iff.mp row
  obtain ⟨mark, rest, rfl, marked, row⟩ := List.map_eq_cons_iff.mp row
  rw [all] at distinct
  obtain ⟨k_apart, distinct⟩ := List.nodup_cons.mp distinct
  rw [List.mem_cons, not_or] at k_apart
  -- The key has its kind before the rest is read.
  have renamed := simple.modify (h := k) (f := fun a => { a with kind := .metaKey }) fun _ own => own
  have lookup (h : Handle) := TokenStream.get?_modify source.tokens k (fun a => { a with kind := .metaKey }) h
  have row' : rest.map (source.tokens.setKind k .metaKey).get? = more.map some :=
    (List.map_congr_left fun h member => (lookup h).trans (if_neg fun same : h = k =>
      k_apart.2 (same ▸ member))).trans row
  obtain ⟨value, s', token, read, ended, held, agrees, same⟩ := metaValue_means
    (s := ((State.first settings tree source (id + 1) []).leave rest).onTokens (·.setKind k .metaKey))
    means (List.nodup_cons.mp distinct).2 row' renamed
  have stored : s'.source.tokens.get? k = some { name with kind := .metaKey } :=
    (same k k_apart.2).trans ((lookup k).trans ((if_pos rfl).trans (congrArg _ named)))
  have own : Plain { name with kind := .metaKey } := simple.plain k name named
  refine ⟨_, _, s', token, laid, metaEntry_run all named name_kind marked mark_kind (Ne.symm k_apart.1) read, ended,
    ?_, held, agrees⟩
  rw [TokenStream.text_eq _ stored, TokenStream.textOf_plain _ own]
  exact congrArg (·.text) name_text

end Grammar

end YaraRules
