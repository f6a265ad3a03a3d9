import YaraRules.Proofs.HexTrees
import YaraRules.Proofs.MetaEntries

/-! Words of hex strings. An opening brace behind an equal sign makes the lexer read units, a bracket makes
it read a jump, and the closing ones lead back, so the text of a tree gives the words of the tree. -/

namespace YaraRules

/-! ### Words and bytes of a tree -/

namespace HexTree

def boundWords : Option JumpBound → List (TokenKind × String)
  | some b => [(.integer, b.text)]
  | none => []

mutual

/-- Kinds and texts of the words that a unit is written in. -/
def words : HexTree → List (TokenKind × String)
  | byte text => [(.hexByte, text)]
  | jump low ranged high =>
    (.hexJumpOpen, "[") ::
      (boundWords low ++ ((if ranged then [(.dash, "-")] else []) ++ (boundWords high ++ [(.hexJumpClose, "]")])))
  | alternation alternatives => (.hexAltOpen, "(") :: (wordsAmong false alternatives ++ [(.hexAltClose, ")")])

def wordsAll : List HexTree → List (TokenKind × String)
  | [] => []
  | unit :: rest => unit.words ++ wordsAll rest

/-- Words of alternatives with bars between them, and before the first if `bar`. -/
def wordsAmong (bar : Bool) : List (List HexTree) → List (TokenKind × String)
  | [] => []
  | units :: rest => (if bar then [(.hexAltOr, "|")] else []) ++ (wordsAll units ++ wordsAmong true rest)

end

/-- Units with a blank behind each. -/
def spaced : List HexTree → Bytes
  | [] => []
  | unit :: rest => Bytes.ofText unit.text ++ 0x20 :: spaced rest

/-- Alternatives with a blank behind each unit and each bar. -/
def barred (bar : Bool) : List (List HexTree) → Bytes
  | [] => []
  | units :: rest => (if bar then [0x7C, 0x20] else []) ++ (spaced units ++ barred true rest)

private theorem spaced_eq : ∀ {units : List HexTree}, units ≠ [] →
    Bytes.ofText (" ".intercalate (texts units)) ++ [0x20] = spaced units
  | [unit], _ => by rw [texts, texts, String.intercalate_singleton, spaced, spaced]
  | unit :: other :: rest, _ => by
    have more := @spaced_eq (other :: rest) (by simp)
    rw [texts, String.intercalate_cons_of_ne_nil (by rw [texts]; simp), spaced, ← more]
    simp [Bytes.ofText, Utf8.encode, String.utf8EncodeChar]

private theorem barred_eq : ∀ {alternatives : List (List HexTree)}, alternatives ≠ [] →
    (∀ units ∈ alternatives, units ≠ []) →
    Bytes.ofText (" | ".intercalate (alternativeTexts alternatives)) ++ [0x20] = barred false alternatives
  | [units], _, filled => by
    rw [alternativeTexts, alternativeTexts, String.intercalate_singleton, barred, barred,
      spaced_eq (filled units (by simp))]
    simp
  | units :: other :: rest, _, filled => by
    obtain ⟨here, later⟩ := List.forall_mem_cons.mp filled
    have more := @barred_eq (other :: rest) (by simp) later
    have bar : barred true (other :: rest) = 0x7C :: 0x20 :: barred false (other :: rest) := by rw [barred, barred]; rfl
    rw [alternativeTexts, String.intercalate_cons_of_ne_nil (by rw [alternativeTexts]; simp), barred,
      ← spaced_eq here, bar, ← more]
    simp [Bytes.ofText, Utf8.encode, String.utf8EncodeChar]

end HexTree

namespace Lexer

variable {file : Option String} {rest bytes : Bytes} {b : UInt8}

/-! ### What units begin with -/

private theorem nibble_encode {c : Char} (nibble : (nibble? c).isSome) :
    ∃ b, String.utf8EncodeChar c = [b] ∧ isNibble b = true := by
  have known : ∀ n < 128, (nibble? (Char.ofNat n)).isSome → String.utf8EncodeChar (Char.ofNat n) = [UInt8.ofNat n] ∧
      isNibble (UInt8.ofNat n) = true := by decide +kernel
  have small : c.toNat < 128 := by
    have most {d : Char} (below : c ≤ d) (ascii : d.toNat < 128) : c.toNat < 128 :=
      Nat.lt_of_le_of_lt (UInt32.le_iff_toNat_le.mp below) ascii
    unfold nibble? at nibble
    split_ifs at nibble with any digit lower upper
    · rw [beq_iff_eq.mp any]
      decide
    · simp only [Char.isDigit, Bool.and_eq_true, decide_eq_true_eq] at digit
      exact most digit.2 (by decide)
    · simp only [Bool.and_eq_true, decide_eq_true_eq] at lower
      exact most lower.2 (by decide)
    · simp only [Bool.and_eq_true, decide_eq_true_eq] at upper
      exact most upper.2 (by decide)
    · cases nibble
  have here := known c.toNat small
  rw [Char.ofNat_toNat] at here
  exact ⟨_, here nibble⟩

/-- A byte that can be read is two nibbles, or two behind a tilde. -/
theorem byte_encode {text : String} (read : (HexByte.read? text).isSome) :
    ∃ a b, isNibble a = true ∧ isNibble b = true ∧ (Bytes.ofText text = [a, b] ∨ Bytes.ofText text = [0x7E, a, b]) := by
  have pair {negated : Bool} {digits : List Char} (found : (pair? negated digits).isSome) :
    ∃ a b, isNibble a = true ∧ isNibble b = true ∧
      Utf8.encode digits = [a, b] := by
    match digits, found with
    | [high, low], found =>
      have both : (nibble? high).isSome ∧ (nibble? low).isSome := by
        cases h : nibble? high <;> cases l : nibble? low <;> simp_all [pair?]
      obtain ⟨a, first, one⟩ := nibble_encode both.1
      obtain ⟨b, second, two⟩ := nibble_encode both.2
      exact ⟨a, b, one, two, by simp [Utf8.encode, first, second]⟩
  unfold HexByte.read? at read
  rw [Bytes.ofText]
  split at read
  next digits same =>
    split at read
    next byte found =>
      obtain ⟨a, b, one, two, encoded⟩ := pair (found ▸ rfl : (pair? true digits).isSome)
      refine ⟨a, b, one, two, .inr ?_⟩
      rw [same, Utf8.encode, List.flatMap_cons]
      exact congrArg (0x7E :: ·) encoded
    next => cases read
  next =>
    obtain ⟨a, b, one, two, encoded⟩ := pair read
    exact ⟨a, b, one, two, .inl encoded⟩

/-- Marks of hex strings. -/
def hexMarks : List (UInt8 × TokenKind) :=
  [(0x7C, .hexAltOr), (0x28, .hexAltOpen), (0x29, .hexAltClose), (0x5B, .hexJumpOpen), (0x7D, .hexEnd)]

/-- A nibble is neither white space nor a mark nor a tilde, and begins no comment. -/
def nibbleAlone (b : UInt8) : Bool :=
  !isNibble b || !isWhite b && b != 0x7E && b != 0x2F && hexMarks.all fun mark => mark.1 != b

private theorem nibbleAlone_all (b : UInt8) : nibbleAlone b = true := by
  have small : ∀ n < 256, nibbleAlone (UInt8.ofNat n) = true := by decide +kernel
  have here := small b.toNat b.toNat_lt
  rwa [UInt8.ofNat_toNat] at here

theorem hexByte_none (other : isNibble b = false) (tilde : b ≠ 0x7E) (bytes : Bytes) :
    hexByte? (b :: bytes) = none := by
  unfold hexByte?
  split
  next same => exact absurd (List.cons.inj same).1 tilde
  next same =>
    obtain ⟨rfl, _⟩ := List.cons.inj same
    simp [other]
  · rfl

theorem lexeme_hexLead (lead : isNibble b = true ∨ b = 0x7E) (bytes : Bytes) :
    isWhite b = false ∧ lexeme? .hexPattern (b :: bytes) = longest [(.token .hexByte, hexByte? (b :: bytes))] := by
  have known : isWhite b = false ∧ b ≠ 0x2F ∧ ∀ mark ∈ hexMarks, ¬(mark.1 = b) := by
    rcases lead with nibble | rfl
    · have all := nibbleAlone_all b
      simp only [nibbleAlone, nibble, Bool.not_true, Bool.false_or, Bool.and_eq_true, Bool.not_eq_true', bne_iff_ne,
        List.all_eq_true] at all
      exact ⟨all.1.1.1, all.1.2, all.2⟩
    · decide
  obtain ⟨black, slash, marks⟩ := known
  have fixed (mark : UInt8 × TokenKind) (member : mark ∈ hexMarks := by simp [hexMarks]) :
      fixed? [mark.1] (b :: bytes) = none := by
    simp [fixed?, List.isPrefixOf, marks mark member]
  have block : blockComment? true (b :: bytes) = none := by
    unfold blockComment?
    split
    next same => exact absurd (List.cons.inj same).1 slash
    · rfl
  refine ⟨black, ?_⟩
  simp only [lexeme?, candidates, fixed (0x7C, .hexAltOr), fixed (0x28, .hexAltOpen), fixed (0x29, .hexAltClose),
    fixed (0x5B, .hexJumpOpen), fixed (0x7D, .hexEnd), block, lineComment_lead slash, blanks_lead black,
    newLine_lead black]
  cases hexByte? (b :: bytes) <;> rfl

theorem lexeme_hexByte {text : String} (read : (HexByte.read? text).isSome) (rest : Bytes) :
    lexeme? .hexPattern (Bytes.ofText text ++ rest) = some (.token .hexByte, (Bytes.ofText text).length) := by
  obtain ⟨a, b, one, two, bytes | bytes⟩ := byte_encode read
  · have other : a ≠ 0x7E := by
      rintro rfl
      cases one
    have found : hexByte? (a :: b :: rest) = some 2 := by
      unfold hexByte?
      split
      next same => exact absurd (List.cons.inj same).1 other
      next same =>
        obtain ⟨rfl, tail⟩ := List.cons.inj same
        obtain ⟨rfl, _⟩ := List.cons.inj tail
        simp [one, two]
      next none => exact absurd rfl (none a b rest)
    rw [bytes, List.cons_append, (lexeme_hexLead (.inl one) _).2]
    exact congrArg (fun found => longest [(Lexeme.token .hexByte, found)]) found
  · rw [bytes, List.cons_append, (lexeme_hexLead (.inr rfl) _).2]
    have found : hexByte? (0x7E :: a :: b :: rest) = some 3 := by simp [hexByte?, one, two]
    exact congrArg (fun found => longest [(Lexeme.token .hexByte, found)]) found

private theorem lexeme_hexMark {mark : UInt8 × TokenKind} (member : mark ∈ hexMarks) (rest : Bytes) :
    lexeme? .hexPattern (mark.1 :: rest) = some (.token mark.2, 1) := by
  simp only [hexMarks, List.mem_cons, List.not_mem_nil, or_false] at member
  rcases member with rfl | rfl | rfl | rfl | rfl <;>
    simp [lexeme?, candidates, hexByte_none, isNibble, isHexDigit, isDigit, fixed?, List.isPrefixOf, blanks?, run1?,
      run, newLine?, blockComment?, lineComment?, longest]

theorem lexeme_hexBlank (black : ∀ b ∈ rest.head?, isWhite b = false) :
    lexeme? .hexPattern (0x20 :: rest) = some (.blank, 1) := by
  simp [lexeme?, candidates, hexByte_none, isNibble, isHexDigit, isDigit, fixed?, List.isPrefixOf, blanks_one black,
    newLine?, blockComment?, lineComment?, longest]

/-! ### What jumps are made of -/

private theorem lexeme_jumpMark {mark : UInt8 × TokenKind} (member : mark ∈ [(0x2D, .dash), (0x5D, .hexJumpClose)])
    (rest : Bytes) : lexeme? .hexJump (mark.1 :: rest) = some (.token mark.2, 1) := by
  simp only [List.mem_cons, List.not_mem_nil, or_false] at member
  have other : isDigit mark.1 = false := by rcases member with rfl | rfl <;> rfl
  have none := (@number_lead rest mark.1 other).2 false
  rcases member with rfl | rfl <;>
    simp [lexeme?, candidates, none, fixed?, List.isPrefixOf, blanks?, run1?, run, newLine?, longest]

/-- What comes next goes on no number in any base. -/
def EndsNumeral (rest : Bytes) : Prop := ∀ b ∈ rest.head?, isHexDigit b = false ∧ b ≠ 0x78 ∧ b ≠ 0x6F

theorem octal_digit (other : isHexDigit b = false) : isOctalDigit b = false := by
  simp only [isHexDigit, isDigit, isOctalDigit, Bool.or_eq_false_iff, Bool.and_eq_false_iff, decide_eq_false_iff_not,
    UInt8.le_iff_toNat_le] at other ⊢
  rcases other.1.1 with low | high
  · exact .inl low
  · exact .inr fun below => high (below.trans (by decide))

private theorem integer_numeral (numeral : Numeral bytes) (ends : EndsNumeral rest) :
    integer? false (bytes ++ rest) = some bytes.length := by
  cases numeral with
  | decimal filled all =>
    have stops : ∀ b ∈ rest.head?, isDigit b = false :=
      fun b first => (Bool.or_eq_false_iff.mp (Bool.or_eq_false_iff.mp (ends b first).1).1).1
    simp only [integer?, based_digits isHexDigit all filled rfl fun b first => (ends b first).2.1,
      based_digits isOctalDigit all filled rfl fun b first => (ends b first).2.2,
      Option.none_or, decimal?, run1_append all filled stops, Option.bind_eq_bind, Option.bind_some, List.drop_left]
    split <;> rfl
  | @hexadecimal digits filled all =>
    have found := run1_append all filled fun b first => (ends b first).1
    simp [integer?, based?, found]
  | @octal digits filled all =>
    have stops : ∀ b ∈ rest.head?, isOctalDigit b = false := fun b first => octal_digit (ends b first).1
    simp [integer?, based?, run1_append all filled stops]

theorem numeral_of_integer {length : Nat} (found : integer? false bytes = some length) :
    Numeral (bytes.take length) := by
  rcases Option.or_eq_some_iff.mp found with hexadecimal | ⟨-, later⟩
  · obtain ⟨digits, whole, filled, all⟩ := based_all hexadecimal
    exact whole ▸ .hexadecimal filled all
  rcases Option.or_eq_some_iff.mp later with octal | ⟨-, decimal⟩
  · obtain ⟨digits, whole, filled, all⟩ := based_all octal
    exact whole ▸ .octal filled all
  · obtain ⟨n, run, rest⟩ := Option.bind_eq_some_iff.mp decimal
    obtain rfl : n = length := by
      split at rest <;> simpa using rest
    obtain ⟨filled, all⟩ := run1_all run
    exact .decimal filled all

private theorem lexeme_numeral (numeral : Numeral bytes) (ends : EndsNumeral rest) :
    lexeme? .hexJump (bytes ++ rest) = some (.token .integer, bytes.length) := by
  have found := integer_numeral numeral ends
  obtain ⟨d, more, rfl, digit⟩ : ∃ d more, bytes = d :: more ∧ isDigit d = true := by
    cases numeral with
    | decimal filled all =>
      obtain ⟨d, more, rfl⟩ := List.exists_cons_of_ne_nil filled
      exact ⟨d, more, rfl, all d (by simp)⟩
    | hexadecimal _ _ => exact ⟨_, _, rfl, rfl⟩
    | octal _ _ => exact ⟨_, _, rfl, rfl⟩
  have black := (digit_lead digit).2.1
  have fixed {mark : UInt8} (other : isDigit mark = false) : fixed? [mark] (d :: (more ++ rest)) = none := by
    have apart : ¬(mark = d) := fun same => by simp [← same, other] at digit
    simp [fixed?, List.isPrefixOf, apart]
  rw [List.cons_append] at found ⊢
  simp only [lexeme?, candidates, found, fixed (show isDigit 0x2D = false from rfl),
    fixed (show isDigit 0x5D = false from rfl), blanks_lead black, newLine_lead black]
  rfl

/-! ### Passing over words -/

/-- The token that the lexer makes of a word. -/
def Made (word : TokenKind × String) (a : Token) : Prop :=
  ∃ location, makeToken word.1 (Bytes.ofText word.2) location = .ok a

/-- The first byte of what is left, if there is one. -/
def Next (meets : UInt8 → Bool) (rest : Bytes) : Prop := ∀ b ∈ rest.head?, meets b = true

def anything (_ : UInt8) : Bool := true

def isBlack (b : UInt8) : Bool := !isWhite b

def endsNumber (b : UInt8) : Bool := !isHexDigit b && b != 0x78 && b != 0x6F

/-- From bytes in one mode the lexer comes to a mode behind them, and makes tokens of words on its way. -/
def Passes (file : Option String) (before : Mode) (bytes : Bytes) (words : List (TokenKind × String)) (after : Mode)
    (next : UInt8 → Bool) : Prop :=
  ∀ (s : State) rest, s.At before (bytes ++ rest) → Next next rest →
    ∃ s' tokens, s'.At after rest ∧ List.Forall₂ Made words tokens ∧ lexed file s = (lexed file s').map (tokens ++ ·)

section

variable {before between after : Mode} {more : Bytes} {words others : List (TokenKind × String)} {next next' : UInt8 →
  Bool} {text : String}
  {kind : TokenKind}

theorem Passes.nil : Passes file before [] [] before next :=
  fun s rest here _ => ⟨s, [], here, .nil, by cases lexed file s <;> rfl⟩

theorem Passes.append (first : Passes file before bytes words between next)
    (second : Passes file between more others after next') (meets : ∀ rest, Next next' rest →
    Next next (more ++ rest)) : Passes file before (bytes ++ more) (words ++ others) after next' := by
  intro s rest here follows
  rw [List.append_assoc] at here
  obtain ⟨s₁, tokens, here₁, made, whole⟩ := first s _ here (meets rest follows)
  obtain ⟨s₂, tokens', here₂, made', whole'⟩ := second s₁ rest here₁ follows
  refine ⟨s₂, tokens ++ tokens', here₂, List.rel_append made made', ?_⟩
  rw [whole, whole']
  cases lexed file s₂ with
  | error => rfl
  | ok => exact congrArg Except.ok (List.append_assoc ..).symm

/-- Kinds of words in the definition of a hex string that stand for themselves. -/
def hexKinds : List TokenKind :=
  [.stringName, .assign, .hexStart, .hexEnd, .hexByte, .hexAltOpen, .hexAltClose, .hexAltOr, .hexJumpOpen,
    .hexJumpClose, .dash]

theorem makeToken_hex (known : kind ∈ hexKinds) (text : String) (location : Location) :
    makeToken kind (Bytes.ofText text) location = .ok { kind, location, literal := .ofWritten text } := by
  simp only [hexKinds, List.mem_cons, List.not_mem_nil, or_false] at known
  rcases known with rfl | rfl | rfl | rfl | rfl | rfl | rfl | rfl | rfl | rfl | rfl <;>
    simp [makeToken, Text.readable_ofText, TokenKind.isComment]

theorem step_hex (file : Option String) {s : State} {mode : Mode} {found : TokenKind} (known : kind ∈ hexKinds)
    (here : s.At mode (Bytes.ofText text ++ rest))
    (lexeme : lexeme? mode (Bytes.ofText text ++ rest) = some (.token found, (Bytes.ofText text).length))
    (role : (if found == .openBrace && s.last == some .assign then .hexStart else found) = kind) : ∃ a s',
    Made (kind, text) a ∧ s'.At (modeAfter mode kind) rest ∧ s'.last = some kind ∧ step file s = .found a s' := by
  refine ⟨_, _, ⟨_, makeToken_hex known text _⟩, ⟨rfl, rfl⟩, if_neg ?_,
    step_at here lexeme role (makeToken_hex known text _)⟩
  simp only [hexKinds, List.mem_cons, List.not_mem_nil, or_false] at known
  rcases known with rfl | rfl | rfl | rfl | rfl | rfl | rfl | rfl | rfl | rfl | rfl <;> decide

private theorem lexed_hex (file : Option String) {s : State} {mode : Mode} {found : TokenKind} (known : kind ∈ hexKinds)
    (here : s.At mode (Bytes.ofText text ++ rest))
    (lexeme : lexeme? mode (Bytes.ofText text ++ rest) = some (.token found, (Bytes.ofText text).length))
    (role : (if found == .openBrace && s.last == some .assign then .hexStart else found) = kind) : ∃ a s',
    Made (kind, text) a ∧ s'.At (modeAfter mode kind) rest ∧ s'.last = some kind ∧
    lexed file s = (lexed file s').map (a :: ·) := by
  obtain ⟨a, s', made, here', last, taken⟩ := step_hex file known here lexeme role
  exact ⟨a, s', made, here', last, lexed_found taken⟩

theorem Passes.word {mode : Mode} (known : kind ∈ hexKinds)
    (found : ∀ rest, Next next rest → lexeme? mode (Bytes.ofText text ++ rest) = some (.token kind,
    (Bytes.ofText text).length)) : Passes file mode (Bytes.ofText text) [(kind, text)] (modeAfter mode kind) next := by
  intro s rest here follows
  have other : kind ≠ .openBrace := by
    rintro rfl
    simp [hexKinds] at known
  obtain ⟨a, s', made, here', _, whole⟩ := lexed_hex file known here (found rest follows) (if_neg (by simp [other]))
  exact ⟨s', [a], here', .cons made .nil, whole⟩

theorem Passes.number {b : JumpBound} (sound : b.Sound) : Passes file .hexJump (Bytes.ofText b.text)
    [(.integer, b.text)] .hexJump endsNumber := by
  intro s rest here follows
  obtain ⟨literal, read, _⟩ := sound.read
  have made (location : Location) : makeToken .integer (Bytes.ofText b.text) location =
      .ok { kind := .integer, location, literal } := by
    rw [makeToken, read]
  have found := @lexeme_numeral rest _ sound.numeral fun b first =>
    by simpa [endsNumber, and_assoc] using follows b first
  obtain ⟨location, s', here', _, whole⟩ := lexed_at here found rfl made
  exact ⟨s', _, here', .cons ⟨location, made location⟩ .nil, whole⟩

theorem Passes.blank : Passes file .hexPattern [0x20] [] .hexPattern isBlack := by
  intro s rest here black
  obtain ⟨s', here', _, whole⟩ :=
    lexed_blank_at here (lexeme_hexBlank fun b first => by simpa [isBlack] using black b first)
  exact ⟨s', [], here', .nil, by rw [whole]; cases lexed file s' <;> rfl⟩

/-- A mark between units, and the mode behind it. -/
theorem Passes.mark (known : kind ∈ hexKinds) (member : (b, kind) ∈ hexMarks) (bytes : Bytes.ofText text = [b]) :
    Passes file .hexPattern [b] [(kind, text)] (modeAfter .hexPattern kind) anything := by
  rw [← bytes]
  exact .word known fun rest _ => by
    rw [bytes]
    exact lexeme_hexMark member rest

private theorem Passes.jumpMark (known : kind ∈ hexKinds) (member : (b, kind) ∈ [(0x2D, .dash), (0x5D, .hexJumpClose)])
    (bytes : Bytes.ofText text = [b]) : Passes file .hexJump [b] [(kind, text)] (modeAfter .hexJump kind) anything := by
  rw [← bytes]
  exact .word known fun rest _ => by
    rw [bytes]
    exact lexeme_jumpMark member rest

/-! ### Units -/

open HexTree

private theorem bound_passes {bound : Option JumpBound} (sound : ∀ b ∈ bound, b.Sound) :
    Passes file .hexJump (Bytes.ofText (boundText bound)) (boundWords bound) .hexJump endsNumber := by
  cases bound with
  | none => exact .nil
  | some b => exact .number (sound b rfl)

/-- The rest of a jump behind its lower bound, with the dash and the higher bound. -/
theorem range_passes {high : Option JumpBound} (sound : ∀ b ∈ high, b.Sound) :
    Passes file .hexJump ([0x2D] ++ (Bytes.ofText (boundText high) ++ [0x5D]))
    ([(.dash, "-")] ++ (boundWords high ++ [(.hexJumpClose, "]")]))
      .hexPattern anything := by
  have closing : Passes file .hexJump [0x5D] [(.hexJumpClose, "]")] .hexPattern anything :=
    .jumpMark (by decide) (by decide) (by decide)
  have dash : Passes file .hexJump [0x2D] [(.dash, "-")] .hexJump anything :=
    .jumpMark (by decide) (by decide) (by decide)
  exact dash.append ((bound_passes sound).append closing fun _ _ => by rintro _ ⟨⟩; rfl) fun _ _ _ _ => rfl

private theorem jump_passes {low high : Option JumpBound} {ranged : Bool} (sound : (jump low ranged high).Sound) :
    Passes file .hexPattern (Bytes.ofText (jump low ranged high).text)
    (jump low ranged high).words .hexPattern anything := by
  have opening : Passes file .hexPattern [0x5B] [(.hexJumpOpen, "[")] .hexJump anything :=
    .mark (by decide) (by decide) (by decide)
  cases sound with
  | @length low low_sound =>
    have closing : Passes file .hexJump [0x5D] [(.hexJumpClose, "]")] .hexPattern anything :=
      .jumpMark (by decide) (by decide) (by decide)
    have bytes : Bytes.ofText (jump (some low) false none).text = [0x5B] ++ (Bytes.ofText low.text ++ [0x5D]) := by
      rw [HexTree.text, if_neg (by decide), ofText_append, ofText_append, List.append_assoc]
      rfl
    rw [bytes]
    exact opening.append ((Passes.number low_sound).append closing fun _ _ => by rintro _ ⟨⟩; rfl) fun _ _ _ _ => rfl
  | range low_sound high_sound _ =>
    have bytes : Bytes.ofText (jump low true high).text =
        [0x5B] ++ (Bytes.ofText (boundText low) ++ ([0x2D] ++ (Bytes.ofText (boundText high) ++ [0x5D]))) := by
      rw [HexTree.text, if_pos rfl, ofText_append, ofText_append, ofText_append, ofText_append]
      simp only [List.append_assoc]
      rfl
    rw [bytes]
    exact opening.append ((bound_passes low_sound).append (range_passes high_sound) fun _ _ => by rintro _ ⟨⟩; rfl)
      fun _ _ _ _ => rfl

private theorem unit_black {unit : HexTree} (sound : unit.Sound) (rest : Bytes) :
    Next isBlack (Bytes.ofText unit.text ++ rest) := by
  have lead {b : UInt8} {text : String} {more : Bytes} (bytes : Bytes.ofText text = b :: more)
    (black : isBlack b = true) :
      Next isBlack (Bytes.ofText text ++ rest) := by
    rw [bytes]
    rintro _ ⟨⟩
    exact black
  cases sound with
  | byte read =>
    rw [HexTree.text]
    obtain ⟨a, b, one, _, bytes | bytes⟩ := byte_encode read
    · exact lead bytes (by simp [isBlack, (lexeme_hexLead (.inl one) []).1])
    · exact lead bytes rfl
  | length _ =>
    rw [HexTree.text, if_neg (by decide)]
    exact lead (by rw [ofText_append, ofText_append]; rfl) (by decide : isBlack 0x5B = true)
  | range _ _ _ =>
    rw [HexTree.text, if_pos rfl]
    exact lead (by rw [ofText_append, ofText_append, ofText_append, ofText_append]; rfl)
      (by decide : isBlack 0x5B = true)
  | alternation _ _ _ =>
    rw [HexTree.text]
    exact lead (by rw [ofText_append, ofText_append]; rfl) (by decide : isBlack 0x28 = true)

private theorem spaced_black {units : List HexTree} (sound : ∀ unit ∈ units, unit.Sound) (follows : Next isBlack rest) :
    Next isBlack (spaced units ++ rest) := by
  cases units with
  | nil => exact follows
  | cons unit units =>
    rw [spaced, List.append_assoc]
    exact unit_black (sound unit (by simp)) _

private theorem barred_black {bar : Bool} {alternatives : List (List HexTree)}
    (sound : ∀ units ∈ alternatives, ∀ unit ∈ units, unit.Sound)
    (follows : Next isBlack rest) : Next isBlack (barred bar alternatives ++ rest) := by
  induction alternatives generalizing bar with
  | nil => exact follows
  | cons units alternatives ih =>
    obtain ⟨here, later⟩ := List.forall_mem_cons.mp sound
    cases bar with
    | true => rw [barred]; rintro _ ⟨⟩; rfl
    | false =>
      rw [barred, if_neg (by decide), List.nil_append, List.append_assoc]
      exact spaced_black here (ih later)

mutual

private theorem unit_passes : ∀ (unit : HexTree), unit.Sound →
    Passes file .hexPattern (Bytes.ofText unit.text) unit.words .hexPattern anything
  | .byte text, sound => by
    cases sound with
    | byte read =>
      rw [HexTree.text, words]
      exact .word (by decide) fun rest _ => lexeme_hexByte read rest
  | .jump low ranged high, sound => jump_passes sound
  | .alternation alternatives, sound => by
    cases sound with
    | alternation two filled each =>
      have some : alternatives ≠ [] := by
        rintro rfl
        simp at two
      have bytes : Bytes.ofText (HexTree.alternation alternatives).text = [0x28] ++
          ([0x20] ++ (barred false alternatives ++ [0x29])) := by
        rw [HexTree.text, ofText_append, ofText_append, ← barred_eq some filled]
        simp [Bytes.ofText, Utf8.encode, String.utf8EncodeChar]
      have opening : Passes file .hexPattern [0x28] [(.hexAltOpen, "(")] .hexPattern anything :=
        .mark (by decide) (by decide) (by decide)
      have closing : Passes file .hexPattern [0x29] [(.hexAltClose, ")")] .hexPattern anything :=
        .mark (by decide) (by decide) (by decide)
      have inner := (alternatives_passes false alternatives each).append closing fun _ _ => by rintro _ ⟨⟩; rfl
      rw [bytes, words]
      refine opening.append (Passes.blank.append inner fun rest _ => ?_) fun _ _ _ _ => rfl
      rw [List.append_assoc]
      exact barred_black each (by rintro _ ⟨⟩; rfl)

private theorem units_passes : ∀ (units : List HexTree), (∀ unit ∈ units, unit.Sound) →
    Passes file .hexPattern (spaced units) (wordsAll units) .hexPattern isBlack
  | [], _ => by
    rw [spaced, wordsAll]
    exact .nil
  | unit :: rest, sound => by
    have here : unit.Sound := sound unit (by simp)
    have later : ∀ other ∈ rest, other.Sound := fun other member => sound other (by simp [member])
    rw [spaced, wordsAll]
    exact (unit_passes unit here).append (Passes.blank.append (units_passes rest later) fun _ => spaced_black later)
      fun _ _ _ _ => rfl

private theorem alternatives_passes (bar : Bool) :
    ∀ (alternatives : List (List HexTree)), (∀ units ∈ alternatives, ∀ unit ∈ units, unit.Sound) →
    Passes file .hexPattern (barred bar alternatives) (wordsAmong bar alternatives) .hexPattern isBlack
  | [], _ => by
    rw [barred, wordsAmong]
    exact .nil
  | units :: rest, sound => by
    have here : ∀ unit ∈ units, unit.Sound := sound units (by simp)
    have later : ∀ others ∈ rest, ∀ unit ∈ others, unit.Sound := fun others member => sound others (by simp [member])
    have both := (units_passes units here).append (alternatives_passes true rest later) fun _ => barred_black later
    have mark : Passes file .hexPattern [0x7C] [(.hexAltOr, "|")] .hexPattern anything :=
      .mark (by decide) (by decide) (by decide)
    rw [barred, wordsAmong]
    cases bar with
    | false => exact both
    | true =>
      refine mark.append (Passes.blank.append both fun rest follows => ?_) fun _ _ _ _ => rfl
      rw [List.append_assoc]
      exact spaced_black here (barred_black later follows)

end

/-! ### Definitions -/

/-- Names of strings are read as they are written. -/
theorem lexeme_stringName {name : String} (valid : isStringIdentifier name = true) (loose : Loose rest) :
    lexeme? .normal (Bytes.ofText name ++ rest) = some (.token .stringName, (Bytes.ofText name).length) := by
  obtain ⟨text, bytes, all⟩ : ∃ text, Bytes.ofText name = 0x24 :: Utf8.encode text ∧
    text.all (fun c => c.isAlphanum || c == '_') = true := by
    unfold isStringIdentifier at valid
    split at valid
    next text same => exact ⟨text, by rw [Bytes.ofText, same]; rfl, valid⟩
    next => cases valid
  rw [bytes]
  exact lexeme_dollar all loose

/-- Words of a hex string. -/
def stringWords (units : List HexTree) : List (TokenKind × String) :=
  (.hexStart, "\x7b") :: (wordsAll units ++ [(.hexEnd, "\x7d")])

/-- Words of the definition of a hex string. -/
def definitionWords (name : String) (units : List HexTree) : List (TokenKind × String) :=
  (.stringName, name) :: (.assign, "=") :: stringWords units

theorem stringText_bytes {units : List HexTree} (filled : units ≠ []) :
    Bytes.ofText (stringText units) = Bytes.ofText "\x7b" ++ ([0x20] ++ (spaced units ++ [0x7D])) := by
  rw [stringText, if_neg (by simpa using filled), ← spaced_eq filled]
  simp [Bytes.ofText, Utf8.encode, String.utf8EncodeChar]

/-- Behind an equal sign the text of a hex string gives its words, whatever follows. -/
theorem lexed_stringText {units : List HexTree} (filled : units ≠ []) (sound : ∀ unit ∈ units, unit.Sound) {s : State}
    {rest : Bytes} (here : s.At .normal (Bytes.ofText (stringText units) ++ rest))
    (assigned : s.last = some .assign) : ∃ s' tokens, s'.At .normal rest ∧
    List.Forall₂ Made (stringWords units) tokens ∧ lexed file s = (lexed file s').map (tokens ++ ·) := by
  have closing : Passes file .hexPattern [0x7D] [(.hexEnd, "\x7d")] .normal anything :=
    .mark (by decide) (by decide) (by decide)
  have inner := (units_passes units sound).append closing fun _ _ => by rintro _ ⟨⟩; rfl
  have body := Passes.blank.append inner fun rest _ => by
    rw [List.append_assoc]
    exact spaced_black sound (by rintro _ ⟨⟩; rfl)
  rw [stringText_bytes filled, List.append_assoc] at here
  obtain ⟨a, s₁, made, here₁, _, whole⟩ :=
    @lexed_hex _ _ .hexStart file _ _ _ (by decide) here (lexeme_brace _) (by rw [assigned]; rfl)
  obtain ⟨s₂, tokens, here₂, made', whole'⟩ := body s₁ rest here₁ fun _ _ => rfl
  refine ⟨s₂, a :: tokens, here₂, .cons made (by simpa using made'), ?_⟩
  rw [whole, whole']
  cases lexed file s₂ <;> rfl

/-- The text of a definition gives its words. -/
theorem lexed_definition {name : String} (valid : isStringIdentifier name = true) {units : List HexTree}
    (filled : units ≠ [])
    (sound : ∀ unit ∈ units, unit.Sound) : ∃ tokens,
    Lexer.tokens file (Bytes.ofText (name ++ " = " ++ stringText units)) = .ok tokens ∧
      List.Forall₂ Made (definitionWords name units) tokens := by
  have start : State.At { rest := Bytes.ofText (name ++ " = " ++ stringText units) } .normal
      (Bytes.ofText name ++ 0x20 :: (Bytes.ofText "=" ++ 0x20 :: (Bytes.ofText (stringText units) ++ []))) := by
    refine ⟨?_, rfl⟩
    rw [ofText_append, ofText_append, List.append_nil, List.append_assoc]
    rfl
  obtain ⟨_, s₁, made₁, here₁, _, whole₁⟩ :=
    @lexed_hex _ _ .stringName file _ _ _ (by decide) start (lexeme_stringName valid (loose_blank _)) rfl
  obtain ⟨s₂, here₂, _, whole₂⟩ := @lexed_blank_at file _ _ _ here₁ (lexeme_blank (by rintro _ ⟨⟩; rfl))
  obtain ⟨_, s₃, made₃, here₃, last₃, whole₃⟩ :=
    @lexed_hex _ _ .assign file _ _ _ (by decide) here₂ (lexeme_assign (loose_blank _)) rfl
  have black : ∀ b ∈ (Bytes.ofText (stringText units) ++ []).head?, isWhite b = false := by
    rw [stringText_bytes filled]
    rintro _ ⟨⟩
    rfl
  obtain ⟨s₄, here₄, last₄, whole₄⟩ := @lexed_blank_at file _ _ _ here₃ (lexeme_blank black)
  obtain ⟨s₅, tokens, here₅, made₅, whole₅⟩ := @lexed_stringText file _ filled sound _ _ here₄ (last₄.trans last₃)
  refine ⟨_, whole₁.trans (congrArg _ (whole₂.trans
    (whole₃.trans (congrArg _ (whole₄.trans (whole₅.trans (congrArg _ (lexed_nil here₅)))))))), ?_⟩
  exact .cons made₁ (.cons made₃ (by simpa using made₅))

end

end Lexer

end YaraRules
