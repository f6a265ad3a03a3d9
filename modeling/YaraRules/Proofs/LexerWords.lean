import YaraRules.Proofs.EscapedTexts

/-! Words that are read back. A word is taken as it was written if white space or nothing
follows it, and becomes a token of its kind. -/

namespace YaraRules.Lexer

variable {rest bytes : Bytes} {b : UInt8}

/-! ### What follows a word -/

def isWhite (b : UInt8) : Bool := b == 0x20 || b == 0x09 || b == 0x0A || b == 0x0D

/-- White space or nothing comes next. -/
def Ends (rest : Bytes) : Prop := ∀ b ∈ rest.head?, isWhite b = true

private theorem ends_nil : Ends [] := nofun

private theorem ends_blank (rest : Bytes) : Ends (0x20 :: rest) := by
  rintro _ ⟨⟩
  rfl

theorem white_cases (white : isWhite b = true) : b = 0x20 ∨ b = 0x09 ∨ b = 0x0A ∨ b = 0x0D := by
  simpa [isWhite, or_assoc] using white

/-- White space and marks that go on no word. -/
def looseBytes : List UInt8 := [0x20, 0x09, 0x0A, 0x0D, 0x25, 0x28, 0x29, 0x2C, 0x2D, 0x2E, 0x3A, 0x5B, 0x5D]

/-- What comes next goes on no word, and no digit stands behind a dot. -/
structure Loose (rest : Bytes) : Prop where
  listed : ∀ b ∈ rest.head?, b ∈ looseBytes
  dotted : ∀ b more, rest = 0x2E :: b :: more → isDigit b = false

/-- What comes next goes on no number. -/
structure Halts (rest : Bytes) : Prop where
  listed : ∀ b ∈ rest.head?, isDigit b = false ∧ b ∉ [0x78, 0x6F, 0x4B, 0x4D]
  dotted : ∀ b more, rest = 0x2E :: b :: more → isDigit b = false

theorem Loose.halts (loose : Loose rest) : Halts rest where
  listed b first := by
    have all : looseBytes.all fun b => !isDigit b && !([0x78, 0x6F, 0x4B, 0x4D].contains b) := by decide
    simpa using List.all_eq_true.mp all b (loose.listed b first)
  dotted := loose.dotted

theorem Ends.loose (ends : Ends rest) : Loose rest where
  listed b first := by rcases white_cases (ends b first) with rfl | rfl | rfl | rfl <;> decide
  dotted b more same := absurd (ends 0x2E (by rw [same]; rfl)) (by decide)

theorem loose_nil : Loose [] := ends_nil.loose

theorem loose_blank (rest : Bytes) : Loose (0x20 :: rest) := (ends_blank rest).loose

/-- What holds of none of these bytes does not hold of the next one. -/
theorem Loose.not {p : UInt8 → Bool} (loose : Loose rest) (none : looseBytes.all fun b => !p b) :
    ∀ b ∈ rest.head?, p b = false := by
  intro b first
  simpa using List.all_eq_true.mp none b (loose.listed b first)

private theorem run_append {p : UInt8 → Bool} (all : ∀ b ∈ bytes, p b = true) (stops : ∀ b ∈ rest.head?, p b = false) :
    run p (bytes ++ rest) = bytes.length := by
  have none : rest.takeWhile p = [] := by
    cases rest with
    | nil => rfl
    | cons b more => exact List.takeWhile_cons_of_neg (by simp [stops b rfl])
  rw [run, List.takeWhile_append_of_pos all, none, List.append_nil]

/-! ### Candidates -/

/-- Candidates of normal mode that are written in one way only. -/
def fixeds (bytes : Bytes) : List (Lexeme × Option Nat) :=
  fixedTexts.map fun entry => (.token entry.2, fixed? entry.1 bytes)

/-- The other candidates of normal mode. -/
def classes (bytes : Bytes) : List (Lexeme × Option Nat) :=
  [(.token .stringName, sigil? 0x24 bytes), (.token .stringWildcard, wildcard? bytes),
    (.token .stringCount, sigil? 0x23 bytes), (.token .stringOffset, sigil? 0x40 bytes),
    (.token .stringLength, sigil? 0x21 bytes), (.token .identifier, identifier? bytes), (.token .float, float? bytes),
    (.token .integer, integer? true bytes), (.token .string, string? bytes), (.token .regexp, regexp? bytes),
    (.token .blockComment, blockComment? false bytes), (.token .lineComment, lineComment? bytes),
    (.blank, blanks? bytes), (.token .newLine, newLine? bytes)]

theorem lexeme_eq (bytes : Bytes) : lexeme? .normal bytes = longest (fixeds bytes ++ classes bytes) := rfl

theorem kind_of_fixed {kind : TokenKind} {length : Option Nat} (fixed : (.token kind, length) ∈ fixeds bytes) :
    kind ∈ .boolean :: fixedKinds := by
  obtain ⟨entry, listed, same⟩ := List.mem_map.mp fixed
  obtain rfl : entry.2 = kind := Lexeme.token.inj (Prod.mk.inj same).1
  obtain rfl | rfl | ⟨kind, known, rfl⟩ : entry = _ ∨ entry = _ ∨ _ := by
    simpa only [fixedTexts, List.mem_cons, List.mem_map] using listed
  · exact List.mem_cons_self
  · exact List.mem_cons_self
  · exact List.mem_cons_of_mem _ known

/-- A kind that no fixed text has is found as a class. -/
theorem class_of_lexeme {kind : TokenKind} {length : Nat} (found : lexeme? .normal bytes = some (.token kind, length))
    (free : kind ∉ .boolean :: fixedKinds) : (.token kind, some length) ∈ classes bytes := by
  have member : _ ∈ fixeds bytes ++ classes bytes := mem_of_longest found
  exact (List.mem_append.mp member).resolve_left fun fixed => free (kind_of_fixed fixed)

theorem longest_none {front back : List (Lexeme × Option Nat)} (none : ∀ candidate ∈ front, candidate.2 = none) :
    longest (front ++ back) = longest back := by
  induction front with
  | nil => rfl
  | cons candidate front ih =>
    obtain ⟨here, others⟩ := List.forall_mem_cons.mp none
    obtain ⟨lexeme, length⟩ := candidate
    obtain rfl : length = Option.none := here
    exact ih others

/-- Behind its first byte no fixed text but the double dot has a byte that goes on no word, none is an
identifier or begins like a blank, a string or a name with a dollar sign, and the minus sign and the opening
brace begin no others. -/
theorem fixedTexts_facts :
    fixedTexts.all fun entry => (entry.1 == [0x2E, 0x2E] || entry.1.tail.all fun b => !looseBytes.contains b) &&
    entry.2 != .identifier && ([0x20, 0x22, 0x24].all fun b => entry.1.head? != some b) && [0x2D, 0x7B].all fun b =>
    entry.1.head? != some b || entry.1 == [b] := by
  decide +kernel

private theorem fixedTexts_known {entry : Bytes × TokenKind} (listed : entry ∈ fixedTexts) :
    (entry.1 = [0x2E, 0x2E] ∨ ∀ b ∈ entry.1.tail, b ∉ looseBytes) ∧ entry.2 ≠ .identifier ∧ (∀ b ∈ [0x20, 0x22, 0x24],
    entry.1.head? ≠ some b) ∧ ∀ b ∈ [0x2D, 0x7B], entry.1.head? = some b → entry.1 = [b] := by
  have known := List.all_eq_true.mp fixedTexts_facts entry listed
  simp only [Bool.and_eq_true, List.all_eq_true, Bool.not_eq_true', bne_iff_ne, Bool.or_eq_true, beq_iff_eq,
    List.contains_eq_mem, decide_eq_false_iff_not] at known
  obtain ⟨⟨⟨tight, kind⟩, apart⟩, sole⟩ := known
  exact ⟨tight, kind, apart, fun b member same => (sole b member).resolve_left (absurd same)⟩

/-- No fixed text goes on with the bytes as what follows does. -/
def Whole (bytes rest : Bytes) : Prop := ∀ entry ∈ fixedTexts, ∀ b ∈ rest.head?, ¬bytes ++ [b] <+: entry.1

private theorem fixed_within {text : Bytes} (apart : ∀ b ∈ rest.head?, ¬bytes ++ [b] <+: text) :
    fixed? text (bytes ++ rest) = fixed? text bytes := by
  have same : text <+: bytes ++ rest ↔ text <+: bytes := by
    refine ⟨fun starts => ?_, fun starts => starts.trans (List.prefix_append _ _)⟩
    rcases List.prefix_or_prefix_of_prefix starts (List.prefix_append bytes rest) with inside | ⟨more, rfl⟩
    · exact inside
    · cases more with
      | nil => simp
      | cons b more =>
        obtain ⟨behind, rfl⟩ := (List.prefix_append_right_inj bytes).mp starts
        exact absurd ⟨more, by simp⟩ (apart b rfl)
  simp only [fixed?, List.isPrefixOf_iff_prefix.trans same, ← List.isPrefixOf_iff_prefix]

theorem fixeds_within (whole : Whole bytes rest) : fixeds (bytes ++ rest) = fixeds bytes :=
  List.map_congr_left fun entry member => by rw [fixed_within (whole entry member)]

theorem Loose.whole (loose : Loose rest) (some : bytes ≠ []) (dot : bytes ≠ [0x2E]) : Whole bytes rest := by
  rintro entry listed b first ⟨more, same⟩
  obtain ⟨lead, bytes, rfl⟩ := List.exists_cons_of_ne_nil some
  rcases (fixedTexts_known listed).1 with double | tight
  · rw [← same] at double
    cases bytes with
    | nil => exact dot (by rw [(List.cons.inj double).1])
    | cons => simp at double
  · exact tight b (by simp [← same]) (loose.listed b first)

theorem fixeds_none (new : ∀ entry ∈ fixedTexts, entry.1.head? ≠ some b) (bytes : Bytes) :
    ∀ candidate ∈ fixeds (b :: bytes), candidate.2 = none := by
  intro candidate member
  obtain ⟨entry, listed, rfl⟩ := List.mem_map.mp member
  have apart := new entry listed
  obtain ⟨first, text, whole⟩ := List.exists_cons_of_ne_nil (fixedTexts_some entry listed)
  have other : ¬(first = b) := by simpa [whole] using apart
  simp [whole, fixed?, List.isPrefixOf, other]

/-- Fixed texts that begin with the byte have no other. -/
theorem fixeds_sole (sole : ∀ entry ∈ fixedTexts, entry.1.head? = some b → entry.1 = [b]) (bytes : Bytes) :
    fixeds (b :: bytes) = fixeds [b] := by
  refine List.map_congr_left fun entry listed => ?_
  have known := sole entry listed
  obtain ⟨first, text, whole⟩ := List.exists_cons_of_ne_nil (fixedTexts_some entry listed)
  by_cases here : first = b
  · obtain rfl : text = [] := by simpa [whole, here] using known
    simp [whole, fixed?, List.isPrefixOf]
  · simp [whole, fixed?, List.isPrefixOf, here]

/-! ### Words of each class -/

theorem regexp_lead (other : b ≠ 0x2F) : regexp? (b :: bytes) = none := by
  unfold regexp?
  split
  next same => exact absurd (List.cons.inj same).1 other
  · rfl

theorem blockComment_lead (other : b ≠ 0x2F) : blockComment? false (b :: bytes) = none := by
  unfold blockComment?
  split
  next same => exact absurd (List.cons.inj same).1 other
  · rfl

theorem lineComment_lead (other : b ≠ 0x2F) : lineComment? (b :: bytes) = none := by
  unfold lineComment?
  split
  next same => exact absurd (List.cons.inj same).1 other
  · rfl

theorem string_lead (other : b ≠ 0x22) : string? (b :: bytes) = none := by
  unfold string?
  split
  next same => exact absurd (List.cons.inj same).1 other
  · rfl

theorem newLine_lead (black : isWhite b = false) : newLine? (b :: bytes) = none := by
  have other : b ≠ 0x0A ∧ b ≠ 0x0D := by
    simp only [isWhite, Bool.or_eq_false_iff, beq_eq_false_iff_ne] at black
    exact ⟨black.1.2, black.2⟩
  unfold newLine?
  split
  next same => exact absurd (List.cons.inj same).1 other.2
  next same => exact absurd (List.cons.inj same).1 other.2
  next same => exact absurd (List.cons.inj same).1 other.1
  · rfl

theorem number_lead (other : isDigit b = false) :
    float? (b :: bytes) = none ∧ ∀ units, integer? units (b :: bytes) = none := by
  have none : run1? isDigit (b :: bytes) = none := by simp [run1?, run, other]
  have zero : b ≠ 0x30 := by
    rintro rfl
    cases other
  have based (mark : UInt8) (p : UInt8 → Bool) : based? mark p (b :: bytes) = Option.none := by
    unfold based?
    split
    next same => exact absurd (List.cons.inj same).1 zero
    · rfl
  simp [float?, integer?, decimal?, based, none]

theorem blanks_lead (black : isWhite b = false) : blanks? (b :: bytes) = none := by
  simp only [isWhite, Bool.or_eq_false_iff] at black
  simp [blanks?, run1?, run, black.1.1.1, black.1.1.2]

theorem identifier_lead (other : (isAlpha b || b == 0x5F) = false) : identifier? (b :: bytes) = none := by
  simp only [identifier?, other, Bool.false_eq_true, if_false]

private theorem classes_lead (other : [0x24, 0x23, 0x40, 0x21, 0x2F].contains b = false) (black : isWhite b = false)
    (bytes : Bytes) :
    classes (b :: bytes) = [(.token .stringName, none), (.token .stringWildcard, none), (.token .stringCount, none),
    (.token .stringOffset, none), (.token .stringLength, none), (.token .identifier, identifier? (b :: bytes)),
    (.token .float, float? (b :: bytes)), (.token .integer, integer? true (b :: bytes)),
    (.token .string, string? (b :: bytes)), (.token .regexp, none), (.token .blockComment, none),
    (.token .lineComment, none), (.blank, none), (.token .newLine, none)] := by
  simp only [List.contains_cons, List.contains_nil, Bool.or_false, Bool.or_eq_false_iff] at other
  obtain ⟨dollar, hash, at_, bang, slash⟩ := other
  have slash := beq_eq_false_iff_ne.mp slash
  simp only [classes, wildcard?, sigil?, dollar, hash, at_, bang, regexp_lead slash, blockComment_lead slash,
    lineComment_lead slash, blanks_lead black, newLine_lead black, if_false, Bool.false_eq_true, Option.bind_eq_bind,
    Option.bind_none]

/-- Bytes that begin a word or a number begin nothing else but fixed texts. -/
def leadsOne (b : UInt8) : Bool :=
  let word := isAlpha b || b == 0x5F
  let other := !([0x24, 0x23, 0x40, 0x21, 0x2F].contains b) && !isWhite b && b != 0x22
  (!word || other && !isDigit b && decide (b < 0x80)) &&
    (!isDigit b || other && !word && fixedTexts.all fun entry => entry.1.head? != some b)

private theorem leadsOne_all (b : UInt8) : leadsOne b = true := by
  have small : ∀ n < 256, leadsOne (UInt8.ofNat n) = true := by decide +kernel
  have here := small b.toNat b.toNat_lt
  rwa [UInt8.ofNat_toNat] at here

theorem word_lead (lead : (isAlpha b || b == 0x5F) = true) : [0x24, 0x23, 0x40, 0x21, 0x2F].contains b = false ∧
    isWhite b = false ∧ b ≠ 0x22 ∧ isDigit b = false ∧ b < 0x80 := by
  have known := leadsOne_all b
  simp only [leadsOne, lead, Bool.not_true, Bool.false_or, Bool.and_eq_true, Bool.not_eq_true', bne_iff_ne,
    decide_eq_true_eq] at known
  obtain ⟨⟨⟨⟨⟨other, black⟩, quote⟩, digit⟩, ascii⟩, _⟩ := known
  exact ⟨other, black, quote, digit, ascii⟩

theorem digit_lead (lead : isDigit b = true) : [0x24, 0x23, 0x40, 0x21, 0x2F].contains b = false ∧ isWhite b = false ∧
    b ≠ 0x22 ∧ (isAlpha b || b == 0x5F) = false ∧ ∀ entry ∈ fixedTexts, entry.1.head? ≠ some b := by
  have known := leadsOne_all b
  simp only [leadsOne, lead, Bool.not_true, Bool.false_or, Bool.and_eq_true, Bool.not_eq_true', bne_iff_ne,
    List.all_eq_true] at known
  obtain ⟨_, ⟨⟨⟨other, black⟩, quote⟩, word⟩, new⟩ := known
  exact ⟨other, black, quote, word, new⟩

/-- What begins with a letter or an underscore is an identifier, unless it is fixed. -/
theorem classes_word (lead : (isAlpha b || b == 0x5F) = true) (bytes : Bytes) : classes (b :: bytes) =
    [(.token .stringName, none), (.token .stringWildcard, none), (.token .stringCount, none),
    (.token .stringOffset, none), (.token .stringLength, none), (.token .identifier, some (wordFrom 0 bytes + 1)),
    (.token .float, none), (.token .integer, none), (.token .string, none), (.token .regexp, none),
    (.token .blockComment, none), (.token .lineComment, none), (.blank, none), (.token .newLine, none)] := by
  obtain ⟨other, black, quote, digit, _⟩ := word_lead lead
  obtain ⟨float, integer⟩ := @number_lead bytes b digit
  simp only [classes_lead other black, identifier?, lead, if_true, float, integer, string_lead quote]

theorem classes_digit (lead : isDigit b = true) (bytes : Bytes) : classes (b :: bytes) =
    [(.token .stringName, none), (.token .stringWildcard, none), (.token .stringCount, none),
    (.token .stringOffset, none), (.token .stringLength, none), (.token .identifier, none),
    (.token .float, float? (b :: bytes)), (.token .integer, integer? true (b :: bytes)), (.token .string, none),
    (.token .regexp, none), (.token .blockComment, none), (.token .lineComment, none), (.blank, none),
    (.token .newLine, none)] := by
  obtain ⟨other, black, quote, word, _⟩ := digit_lead lead
  simp only [classes_lead other black, identifier_lead word, string_lead quote]

/-! ### Identifiers -/

theorem wordFrom_skip (rest : Bytes) :
    ∀ tail : Bytes, wordFrom tail.length (tail ++ rest) = tail.length + wordFrom 0 rest
  | [] => (Nat.zero_add _).symm
  | _ :: tail => by
    rw [List.length_cons, List.cons_append, wordFrom, wordFrom_skip rest tail]
    omega

theorem wordFrom_loose (loose : Loose rest) : wordFrom 0 rest = 0 := by
  cases rest with
  | nil => rfl
  | cons b more =>
    have listed := loose.listed b rfl
    simp only [looseBytes, List.mem_cons, List.not_mem_nil, or_false] at listed
    rcases listed with rfl | rfl | rfl | rfl | rfl | rfl | rfl | rfl | rfl | rfl | rfl | rfl | rfl <;> rfl

/-- A character either continues a word or ends it, whatever follows. -/
theorem wordFrom_char (c : Char) : (∀ rest, wordFrom 0 (String.utf8EncodeChar c ++ rest) = 0) ∨
    ∀ rest, wordFrom 0 (String.utf8EncodeChar c ++ rest) = (String.utf8EncodeChar c).length + wordFrom 0 rest := by
  have some : String.utf8EncodeChar c ≠ [] := List.length_pos_iff.mp (String.length_utf8EncodeChar c ▸ c.utf8Size_pos)
  obtain ⟨b, tail, bytes⟩ := List.exists_cons_of_ne_nil some
  have read (rest : Bytes) : Utf8.first? (b :: (tail ++ rest)) = Option.some (c, tail.length + 1) := by
    have first := Utf8.first?_encode c rest
    rwa [bytes] at first
  rw [bytes]
  simp only [List.cons_append, List.length_cons]
  by_cases lead : (isAlpha b || b == 0x5F) = true
  · have ascii : b < 0x80 := (word_lead lead).2.2.2.2
    obtain rfl : tail = [] := by
      have width := congrArg (Option.map Prod.snd) (read [])
      simp only [Utf8.first?, ascii, if_true, Option.map_some, Option.some.injEq] at width
      exact List.length_eq_zero_iff.mp (by omega)
    refine .inr fun rest => ?_
    rw [wordFrom, if_pos lead]
    exact Nat.add_comm _ _
  · by_cases digit : Text.isDecimalDigit c = true
    · refine .inr fun rest => ?_
      rw [wordFrom, if_neg lead, read]
      simp only [digit, if_true, Nat.add_sub_cancel, wordFrom_skip]
      omega
    · refine .inl fun rest => ?_
      rw [wordFrom, if_neg lead, read]
      simp only [digit, Bool.false_eq_true, if_false]

/-- Characters that continue a word do so whatever follows them. -/
theorem wordFrom_encode (stops : wordFrom 0 rest = 0) :
    ∀ text : List Char, wordFrom 0 (Utf8.encode text) = (Utf8.encode text).length →
    wordFrom 0 (Utf8.encode text ++ rest) = (Utf8.encode text).length
  | [], _ => stops
  | c :: text, whole => by
    have split : Utf8.encode (c :: text) = String.utf8EncodeChar c ++ Utf8.encode text := List.flatMap_cons
    have some : 0 < (String.utf8EncodeChar c).length := String.length_utf8EncodeChar c ▸ c.utf8Size_pos
    rw [split, List.length_append] at whole ⊢
    rcases wordFrom_char c with none | more
    · rw [none] at whole
      omega
    · rw [more] at whole
      rw [List.append_assoc, more, wordFrom_encode stops text (by omega)]

private theorem lexeme_word (lead : (isAlpha b || b == 0x5F) = true) (loose : Loose rest) {text : List Char}
    (whole : wordFrom 0 (Utf8.encode text) = (Utf8.encode text).length) :
    lexeme? .normal (b :: Utf8.encode text ++ rest) = lexeme? .normal (b :: Utf8.encode text) := by
  have same : classes (b :: (Utf8.encode text ++ rest)) = classes (b :: Utf8.encode text) := by
    rw [classes_word lead, classes_word lead, wordFrom_encode (wordFrom_loose loose) text whole, whole]
  have dot : b :: Utf8.encode text ≠ [0x2E] := fun same => by
    rw [(List.cons.inj same).1] at lead
    cases lead
  rw [lexeme_eq, lexeme_eq, fixeds_within (loose.whole (List.cons_ne_nil _ _) dot)]
  exact congrArg (fun found => longest (fixeds (b :: Utf8.encode text) ++ found)) same

theorem lexeme_identifier {key : String} (identifier : isIdentifier key = true) (loose : Loose rest) :
    lexeme? .normal (Bytes.ofText key ++ rest) = some (.token .identifier, (Bytes.ofText key).length) := by
  have alone : lexeme? .normal (Bytes.ofText key) = some (.token .identifier, (Bytes.ofText key).length) := by
    simpa [isIdentifier] using identifier
  have found : identifier? (Bytes.ofText key) = some (Bytes.ofText key).length := by
    rcases List.mem_append.mp (mem_of_longest (lexeme_eq _ ▸ alone)) with early | late
    · obtain ⟨entry, listed, same⟩ := List.mem_map.mp early
      exact absurd (Lexeme.token.inj (Prod.mk.inj same).1) (fixedTexts_known listed).2.1
    · simpa [classes, eq_comm] using late
  cases bytes : Bytes.ofText key with
  | nil => simp [bytes, identifier?] at found
  | cons b more =>
    rw [bytes, identifier?] at found
    split_ifs at found with lead
    obtain ⟨text, _, rfl⟩ := Utf8.head_of_encode bytes (word_lead lead).2.2.2.2
    rw [lexeme_word lead loose (by simpa using found), ← bytes, alone]

private theorem lexeme_runs : lexeme? .normal (0x66 :: Utf8.encode ['a', 'l', 's', 'e']) = some (.token .boolean, 5) ∧
    lexeme? .normal (0x74 :: Utf8.encode ['r', 'u', 'e']) = some (.token .boolean, 4) ∧
    lexeme? .normal [0x3D] = some (.token .assign, 1) ∧ lexeme? .normal [0x2D] = some (.token .minus, 1) ∧
    lexeme? .normal [0x7B] = some (.token .openBrace, 1) := by
  decide +kernel

theorem lexeme_boolean (value : Bool) (loose : Loose rest) :
    lexeme? .normal (Bytes.ofText (if value then "true" else "false") ++ rest) =
    some (.token .boolean, (Bytes.ofText (if value then "true" else "false")).length) := by
  cases value with
  | false =>
    exact (lexeme_word (b := 0x66) rfl loose (show wordFrom 0 (Utf8.encode ['a', 'l', 's', 'e']) =
      _ from rfl)).trans lexeme_runs.1
  | true =>
    exact (lexeme_word (b := 0x74) rfl loose (show wordFrom 0 (Utf8.encode ['r', 'u', 'e']) =
      _ from rfl)).trans lexeme_runs.2.1

/-! ### Numbers, marks and strings -/

theorem run1_append {p : UInt8 → Bool} (all : ∀ b ∈ bytes, p b = true) (some : bytes ≠ [])
    (stops : ∀ b ∈ rest.head?, p b = false) : run1? p (bytes ++ rest) = Option.some bytes.length := by
  have positive := List.length_pos_iff.mpr some
  rw [run1?, run_append all stops]
  split
  next none => omega
  next => rfl

/-- Where a mark comes behind a zero at the head of some digits, there is but that zero. -/
theorem digits_marked {mark : UInt8} {after : Bytes} (all : ∀ b ∈ bytes, isDigit b = true) (some : bytes ≠ [])
    (letter : isDigit mark = false) (same : bytes ++ rest = 0x30 :: mark :: after) : rest.head? = Option.some mark := by
  match bytes, some with
  | [_], _ => exact congrArg List.head? (List.cons.inj same).2
  | _ :: d :: _, _ =>
    obtain ⟨rfl, _⟩ := List.cons.inj (List.cons.inj same).2
    exact absurd (all d (by simp)) (by simp [letter])

/-- Digits are no number in another base, unless its mark comes next. -/
theorem based_digits {mark : UInt8} (p : UInt8 → Bool) (digits : ∀ b ∈ bytes, isDigit b = true) (some : bytes ≠ [])
    (letter : isDigit mark = false) (other : ∀ b ∈ rest.head?, b ≠ mark) : based? mark p (bytes ++ rest) = none := by
  unfold based?
  split
  next m after same =>
    refine if_neg fun marked => ?_
    obtain rfl : m = mark := by simpa using marked
    exact other m (digits_marked digits some letter same) rfl
  · rfl

/-- Digits are an integer in front of what goes on none. -/
theorem integer_plain (digits : ∀ b ∈ bytes, isDigit b = true) (some : bytes ≠ [])
    (stops : ∀ b ∈ rest.head?, isDigit b = false ∧ b ∉ [0x78, 0x6F, 0x4B, 0x4D]) : integer? true (bytes ++ rest) =
    Option.some bytes.length := by
  have run : run1? isDigit (bytes ++ rest) = Option.some bytes.length :=
    run1_append digits some fun b first => (stops b first).1
  have based {mark : UInt8} (p : UInt8 → Bool) (letter : isDigit mark = false)
    (listed : mark ∈ [0x78, 0x6F, 0x4B, 0x4D]) :
      based? mark p (bytes ++ rest) = none :=
    based_digits p digits some letter fun b first same => (stops b first).2 (same ▸ listed)
  simp only [integer?, based _ (show isDigit 0x78 = false from rfl) (by decide), based _ (show isDigit 0x6F =
    false from rfl) (by decide), Option.none_or, decimal?, run, Option.bind_eq_bind, Option.bind_some, List.drop_left]
  split
  next u _ =>
    refine congrArg Option.some (if_neg fun unit => ?_)
    have listed := (stops u rfl).2
    rw [Bool.true_and, Bool.or_eq_true, beq_iff_eq, beq_iff_eq] at unit
    rcases unit with rfl | rfl <;> exact listed (by decide)
  · rfl

private theorem integer_digits (digits : ∀ b ∈ bytes, isDigit b = true) (some : bytes ≠ []) (halts : Halts rest) :
    float? (bytes ++ rest) = none ∧ integer? true (bytes ++ rest) = Option.some bytes.length := by
  have run : run1? isDigit (bytes ++ rest) = Option.some bytes.length :=
    run1_append digits some fun b first => (halts.listed b first).1
  refine ⟨?_, integer_plain digits some halts.listed⟩
  simp only [float?, run, Option.bind_eq_bind, Option.bind_some, List.drop_left]
  split
  next after =>
    have none : run1? isDigit after = Option.none := by
      cases after with
      | nil => rfl
      | cons b more => simp [run1?, Lexer.run, halts.dotted b more rfl]
    rw [none]
    rfl
  · rfl

theorem lexeme_digits (digits : ∀ b ∈ bytes, isDigit b = true) (some : bytes ≠ []) (halts : Halts rest) :
    lexeme? .normal (bytes ++ rest) = Option.some (.token .integer, bytes.length) := by
  obtain ⟨float, integer⟩ := integer_digits digits some halts
  obtain ⟨d, more, rfl⟩ := List.exists_cons_of_ne_nil some
  have lead := digits d (by simp)
  rw [lexeme_eq, List.cons_append, longest_none (fixeds_none (digit_lead lead).2.2.2.2 _), classes_digit lead,
    ← List.cons_append, float, integer]
  rfl

/-- A mark that begins nothing but fixed texts. -/
theorem classes_mark (other : [0x24, 0x23, 0x40, 0x21, 0x2F].contains b = false) (black : isWhite b = false)
    (quote : b ≠ 0x22) (word : (isAlpha b || b == 0x5F) = false) (digit : isDigit b = false)
    (bytes : Bytes) : classes (b :: bytes) = classes [b] := by
  simp only [classes_lead other black, identifier_lead word, string_lead quote, number_lead digit]

theorem lexeme_assign (loose : Loose rest) : lexeme? .normal (0x3D :: rest) = some (.token .assign, 1) := by
  have fixed : fixeds ([0x3D] ++ rest) = fixeds [0x3D] := fixeds_within (loose.whole (by decide) (by decide))
  rw [lexeme_eq, classes_mark rfl rfl (by decide) rfl rfl]
  exact (congrArg (fun found => longest (found ++ classes [0x3D])) fixed).trans lexeme_runs.2.2.1

theorem lexeme_minus (rest : Bytes) : lexeme? .normal (0x2D :: rest) = some (.token .minus, 1) := by
  rw [lexeme_eq, classes_mark rfl rfl (by decide) rfl rfl, fixeds_sole fun entry listed =>
    (fixedTexts_known listed).2.2.2 0x2D (by decide)]
  exact lexeme_runs.2.2.2.1

theorem lexeme_brace (rest : Bytes) : lexeme? .normal (0x7B :: rest) = some (.token .openBrace, 1) := by
  rw [lexeme_eq, classes_mark rfl rfl (by decide) rfl rfl, fixeds_sole fun entry listed =>
    (fixedTexts_known listed).2.2.2 0x7B (by decide)]
  exact lexeme_runs.2.2.2.2

theorem blanks_one (black : ∀ b ∈ rest.head?, isWhite b = false) : blanks? (0x20 :: rest) = some 1 := by
  have stops : ∀ b ∈ rest.head?, (b == 0x20 || b == 0x09) = false := fun b first => by
    have other := black b first
    simp only [isWhite, Bool.or_eq_false_iff] at other
    simp [other.1.1]
  exact @run1_append rest [0x20] _ (by simp) (by simp) stops

theorem lexeme_blank (black : ∀ b ∈ rest.head?, isWhite b = false) :
    lexeme? .normal (0x20 :: rest) = some (.blank, 1) := by
  obtain ⟨float, integer⟩ := @number_lead rest 0x20 rfl
  rw [lexeme_eq, longest_none (fixeds_none (fun entry listed => (fixedTexts_known listed).2.2.1 0x20 (by decide)) _)]
  simp only [classes, wildcard?, sigil?, regexp?, blockComment?, lineComment?, string?, newLine?, blanks_one black,
    float, integer, identifier_lead (show (isAlpha 0x20 || 0x20 == 0x5F) = false from rfl)]
  rfl

theorem lexeme_quote (bytes : Bytes) :
    lexeme? .normal (0x22 :: bytes) = (string? (0x22 :: bytes)).map fun length => (.token .string, length) := by
  obtain ⟨float, integer⟩ := @number_lead bytes 0x22 rfl
  rw [lexeme_eq, longest_none (fixeds_none (fun entry listed => (fixedTexts_known listed).2.2.1 0x22 (by decide)) _),
    classes_lead rfl rfl, identifier_lead rfl, float, integer]
  cases string? (0x22 :: bytes) <;> rfl

theorem lexeme_string (text : String) (rest : Bytes) :
    lexeme? .normal (Bytes.ofText ("\"" ++ Text.escape text ++ "\"") ++ rest) =
      some (.token .string, (Bytes.ofText ("\"" ++ Text.escape text ++ "\"")).length) := by
  have found := string_escape text rest
  obtain ⟨more, quoted⟩ : ∃ more, Bytes.ofText ("\"" ++ Text.escape text ++ "\"") = 0x22 :: more := by
    simp [Bytes.ofText, Utf8.encode, String.utf8EncodeChar]
  rw [quoted] at found ⊢
  rw [List.cons_append, lexeme_quote, ← List.cons_append, found]
  rfl

/-! ### Names of strings -/

private theorem wordFrom_name : ∀ text : List Char, text.all (fun c => c.isAlphanum || c == '_') = true →
    wordFrom 0 (Utf8.encode text) = (Utf8.encode text).length
  | [], _ => rfl
  | c :: text, all => by
    obtain ⟨here, later⟩ := Bool.and_eq_true_iff.mp (List.all_cons ▸ all)
    have known : ∀ n < 128, ((Char.ofNat n).isAlphanum || Char.ofNat n == '_') = true →
        wordFrom 0 (String.utf8EncodeChar (Char.ofNat n)) = 1 := by
      decide +kernel
    have small : c.toNat < 128 := by
      rw [Bool.or_eq_true, beq_iff_eq] at here
      rcases here with here | rfl
      · delta Char.isAlphanum Char.isAlpha Char.isUpper Char.isLower Char.isDigit at here
        simp only [Bool.or_eq_true, Bool.and_eq_true, decide_eq_true_eq, ge_iff_le, UInt32.le_iff_toNat_le] at here
        have upper : 'Z'.val.toNat = 90 := rfl
        have lower : 'z'.val.toNat = 122 := rfl
        have digit : '9'.val.toNat = 57 := rfl
        show c.val.toNat < 128
        omega
      · decide
    have one : wordFrom 0 (String.utf8EncodeChar c) = 1 := by
      have read := known c.toNat small
      rw [Char.ofNat_toNat] at read
      exact read here
    have split : Utf8.encode (c :: text) = String.utf8EncodeChar c ++ Utf8.encode text := List.flatMap_cons
    rcases wordFrom_char c with none | more
    · have := none []
      rw [List.append_nil] at this
      omega
    · rw [split, more, wordFrom_name text later, List.length_append]

/-- A dollar sign begins a name, or a name with an asterisk behind it. -/
theorem classes_dollar {n : Nat} (word : wordFrom 0 bytes = n) (star : bytes[n]? ≠ some 0x2A) :
    longest (classes (0x24 :: bytes)) = some (.token .stringName, n + 1) := by
  simp only [classes, identifier_lead (show (isAlpha 0x24 || 0x24 == 0x5F) = false from rfl),
    number_lead (show isDigit 0x24 = false from rfl), string_lead (show (0x24 : UInt8) ≠ 0x22 by decide),
    regexp_lead (show (0x24 : UInt8) ≠ 0x2F by decide), blockComment_lead (show (0x24 : UInt8) ≠ 0x2F by decide),
    lineComment_lead (show (0x24 : UInt8) ≠ 0x2F by decide), blanks_lead (show isWhite 0x24 = false from rfl),
    newLine_lead (show isWhite 0x24 = false from rfl)]
  simp [sigil?, wildcard?, longest, word, star]

/-- A name with a dollar sign is found in front of what does not go on with it. -/
theorem lexeme_dollar {text : List Char} (all : text.all (fun c => c.isAlphanum || c == '_') = true)
    (loose : Loose rest) : lexeme? .normal (0x24 :: (Utf8.encode text ++ rest)) =
    some (.token .stringName, (Utf8.encode text).length + 1) := by
  have word := wordFrom_encode (wordFrom_loose loose) text (wordFrom_name text all)
  have star : (Utf8.encode text ++ rest)[(Utf8.encode text).length]? ≠ some 0x2A := by
    rw [List.getElem?_append_right (Nat.le_refl _), Nat.sub_self, ← List.head?_eq_getElem?]
    exact fun first => absurd (loose.listed 0x2A first) (by decide)
  rw [lexeme_eq, longest_none (fixeds_none (fun entry listed => (fixedTexts_known listed).2.2.1 0x24 (by decide)) _),
    classes_dollar word star]

end YaraRules.Lexer
