import YaraRules.Proofs.IntegerLiterals
import YaraRules.Proofs.MetaEntries
import YaraRules.Proofs.RawStrings
import YaraRules.Proofs.ReadRuleWords

/-! Words that are read again. What the lexer found is written as the text of its token. In front of what
does not go on with it, that text is found as the same token, whatever stood around it before. -/

namespace YaraRules

namespace Lexer

variable {rest bytes : Bytes} {b : UInt8} {kind : TokenKind} {length : Nat} {text : List Char}

/-! ### Kinds of words and what follows them -/

/-- Kinds of words outside of hex strings. An opening brace is left out, since it may begin such a string. -/
def isWord (kind : TokenKind) : Bool :=
  [.boolean, .stringName, .stringWildcard, .stringCount, .stringOffset, .stringLength, .identifier, .float, .integer,
    .string, .regexp].contains kind ||
    fixedKinds.contains kind && kind != .openBrace

/-- Kinds of marks that are found whatever follows them. -/
def isOpen (kind : TokenKind) : Bool := [.openParen, .openBracket, .minus, .bitNot, .doubleDot].contains kind

/-- What follows leaves a word of the kind as it is. -/
def Leaves (kind : TokenKind) (rest : Bytes) : Prop :=
  isOpen kind = true ∨ kind = .dot ∧ rest.head? ≠ some 0x2E ∨ kind ≠ .dot ∧ Loose rest

theorem Leaves.loose (leaves : Leaves kind rest) (closed : isOpen kind = false) (dot : kind ≠ .dot) : Loose rest := by
  rcases leaves with opens | ⟨same, _⟩ | ⟨_, loose⟩
  · rw [closed] at opens
    cases opens
  · exact absurd same dot
  · exact loose

/-! ### Words with a fixed text -/

/-- A mark that begins nothing but fixed texts. -/
def isMark (b : UInt8) : Bool :=
  !([0x24, 0x23, 0x40, 0x21, 0x2F].contains b) && !isWhite b && b != 0x22 && !(isAlpha b || b == 0x5F) && !isDigit b

/-- A fixed text is a word of letters and digits, or a mark with more behind it, or the sign of what is not equal. -/
def isShaped (entry : Bytes × TokenKind) : Bool :=
  match entry.1 with
  | [] => false
  | b :: more =>
    (isAlpha b || b == 0x5F) && Utf8.encode (more.map fun b => Char.ofNat b.toNat) == more &&
      wordFrom 0 more == more.length &&
      !isOpen entry.2 && entry.2 != .dot || isMark b || entry.1 == [0x21, 0x3D]

/-- Marks that are found whatever follows begin no other fixed text, and the dot begins one other only. No
text is there twice. -/
theorem fixedTexts_shapes : (fixedTexts.all fun entry => isShaped entry &&
    ((!isOpen entry.2 || fixedTexts.all fun other => !entry.1.isPrefixOf other.1 || other.1 == entry.1) &&
      (entry.1 == [0x2E]) == (entry.2 == .dot) &&
      (entry.1.head? != some 0x2E || entry.1 == [0x2E] || entry.1 == [0x2E, 0x2E]))) ∧
    (fixedTexts.map (·.1)).Nodup := by
  decide +kernel

private theorem fixedTexts_shaped_known {entry : Bytes × TokenKind} (listed : entry ∈ fixedTexts) :
    isShaped entry = true ∧ (isOpen entry.2 = true → ∀ other ∈ fixedTexts, entry.1 <+: other.1 → other.1 = entry.1) ∧
    (entry.1 = [0x2E] ↔ entry.2 = .dot) ∧ (entry.1.head? = some 0x2E → entry.1 = [0x2E] ∨ entry.1 = [0x2E, 0x2E]) := by
  have known := List.all_eq_true.mp fixedTexts_shapes.1 entry listed
  simp only [Bool.and_eq_true, Bool.or_eq_true, Bool.not_eq_true', List.all_eq_true, bne_iff_ne,
    beq_iff_eq, ne_eq] at known
  obtain ⟨shaped, ⟨opens, dot⟩, head⟩ := known
  refine ⟨shaped, fun same other member starts => ?_, ?_, fun same => ?_⟩
  · rcases opens with closed | sole
    · rw [same] at closed
      cases closed
    · refine (sole other member).resolve_left fun apart => ?_
      rw [List.isPrefixOf_iff_prefix.mpr starts] at apart
      cases apart
  · rw [← beq_iff_eq (a := entry.1), dot, beq_iff_eq]
  · rcases head with (other | one) | two
    · exact absurd same other
    · exact .inl one
    · exact .inr two

private theorem whole_fixed {entry : Bytes × TokenKind} (listed : entry ∈ fixedTexts) (leaves : Leaves entry.2 rest) :
    Whole entry.1 rest := by
  obtain ⟨_, sole, dot, _⟩ := fixedTexts_shaped_known listed
  rcases leaves with opens | ⟨same, apart⟩ | ⟨other, loose⟩
  · intro longer member b _ starts
    have same := sole opens longer member ((List.prefix_append _ _).trans starts)
    have length := starts.length_le
    rw [same, List.length_append, List.length_singleton] at length
    omega
  · intro longer member b first starts
    rw [dot.mpr same] at starts
    obtain ⟨_, _, _, heads⟩ := fixedTexts_shaped_known member
    obtain ⟨more, whole⟩ := starts
    rcases heads (by rw [← whole]; rfl) with one | two
    · simp [one] at whole
    · rw [two] at whole
      obtain rfl : b = 0x2E := (List.cons.inj (List.cons.inj whole).2).1
      exact apart first
  · exact loose.whole (fixedTexts_some entry listed) fun same => other (dot.mp same)

private theorem lexeme_alone {entry : Bytes × TokenKind} (listed : entry ∈ fixedTexts) :
    lexeme? .normal entry.1 = some (.token entry.2, entry.1.length) := by
  obtain ⟨front, back, split⟩ := List.append_of_mem listed
  have most : ∀ candidate ∈ candidates .normal entry.1, ∀ n ∈ candidate.2, n ≤ entry.1.length :=
    fun candidate member n found =>
    (candidates_fit .normal entry.1 candidate member n found).2
  have parts : candidates .normal entry.1 = front.map (fun other => (.token other.2, fixed? other.1 entry.1)) ++
      ((.token entry.2, some entry.1.length) :: (back.map (fun other => (.token other.2, fixed? other.1 entry.1)) ++
        classes entry.1)) := by
    have itself : fixed? entry.1 entry.1 = some entry.1.length :=
      if_pos (List.isPrefixOf_iff_prefix.mpr (List.prefix_refl _))
    show fixeds entry.1 ++ classes entry.1 = _
    rw [fixeds, split, List.map_append, List.map_cons, itself, List.append_assoc]
    rfl
  rw [lexeme?, parts]
  rw [parts] at most
  refine longest_later ?_ fun candidate member n found => ?_
  · rw [longest]
    split
    next other more later =>
      have longest := mem_of_longest later
      exact if_neg (Nat.not_lt.mpr (most _ (List.mem_append_right _ (List.mem_cons_of_mem _ longest)) more rfl))
    next => rfl
  · refine Nat.lt_of_le_of_ne (most candidate (List.mem_append_left _ member) n found) ?_
    rintro rfl
    obtain ⟨other, among, rfl⟩ := List.mem_map.mp member
    -- A text before it that is as long would be the same text.
    have same : other.1 = entry.1 := by
      have taken := fixed_taken found
      rwa [List.take_length, eq_comm] at taken
    have distinct := fixedTexts_shapes.2
    rw [split, List.map_append, List.map_cons] at distinct
    refine (List.nodup_append.mp distinct).2.2 other.1 (List.mem_map_of_mem among) entry.1 List.mem_cons_self same

private theorem lexeme_fixed {entry : Bytes × TokenKind} (listed : entry ∈ fixedTexts) (leaves : Leaves entry.2 rest) :
    lexeme? .normal (entry.1 ++ rest) = some (.token entry.2, entry.1.length) := by
  have same : classes (entry.1 ++ rest) = classes entry.1 := by
    have shaped := (fixedTexts_shaped_known listed).1
    unfold isShaped at shaped
    split at shaped
    next => cases shaped
    next b more whole =>
      simp only [Bool.and_eq_true, Bool.or_eq_true, beq_iff_eq, Bool.not_eq_true', bne_iff_ne, ne_eq] at shaped
      rcases shaped with (⟨⟨⟨⟨lead, letters⟩, word⟩, closed⟩, dot⟩ | mark) | unequal
      · have lead : (isAlpha b || b == 0x5F) = true := by simpa using lead
        have stops := wordFrom_loose (leaves.loose closed dot)
        rw [← letters] at word
        have here := wordFrom_encode stops _ word
        rw [letters] at here word
        rw [whole, List.cons_append, classes_word lead, classes_word lead, here, word]
      · simp only [isMark, Bool.and_eq_true, Bool.not_eq_true', bne_iff_ne, ne_eq] at mark
        obtain ⟨⟨⟨⟨other, black⟩, quote⟩, word⟩, digit⟩ := mark
        rw [whole, List.cons_append, classes_mark other black quote word digit,
          classes_mark other black quote word digit more]
      · obtain ⟨rfl, rfl⟩ : b = 0x21 ∧ more = [0x3D] := by simpa [whole] using unequal
        obtain ⟨float, integer⟩ := @number_lead ([0x3D] ++ rest) 0x21 rfl
        obtain ⟨float', integer'⟩ := @number_lead [0x3D] 0x21 rfl
        rw [whole, List.cons_append]
        simp only [classes, float, integer, float', integer']
        rfl
  rw [lexeme_eq, fixeds_within (whole_fixed listed leaves), same, ← lexeme_eq, lexeme_alone listed]

private theorem fixed_of_lexeme (found : lexeme? .normal (bytes ++ rest) = some (.token kind, bytes.length))
    (fixed : kind ∈ .boolean :: fixedKinds) : (bytes, kind) ∈ fixedTexts := by
  rcases List.mem_append.mp (mem_of_longest (lexeme_eq _ ▸ found)) with early | late
  · obtain ⟨entry, listed, same⟩ := List.mem_map.mp early
    obtain ⟨rfl, taken⟩ : entry.2 = kind ∧ fixed? entry.1 (bytes ++ rest) = some bytes.length := by simpa using same
    have text := fixed_taken taken
    rw [List.take_left] at text
    rwa [text]
  · have others : ((classes (bytes ++ rest)).all fun candidate => match candidate.1 with
        | .token kind => !((.boolean :: fixedKinds).contains kind)
        | .blank => true) = true := rfl
    exact absurd fixed (by simpa using List.all_eq_true.mp others _ late)

/-! ### How texts begin -/

/-- The bytes begin with a word of the kind, and no digit stands behind a dot. -/
structure Begins (kind : TokenKind) (bytes : Bytes) : Prop where
  black : ∀ b ∈ bytes.head?, isWhite b = false
  fixed : ∀ text, kind.fixedText? = some text → Bytes.ofText text <+: bytes
  letter : kind = .identifier → ∃ b more, bytes = b :: more ∧ (isAlpha b || b == 0x5F) = true
  dotted : kind = .dot → ∀ b more, bytes = 0x2E :: b :: more → isDigit b = false

/-- Words with a fixed text are written as it is, and begin with no white space. -/
theorem fixedTexts_written : fixedTexts.all fun entry => entry.1 != [] && entry.1.head?.all (fun b => !isWhite b) &&
    entry.2.fixedText?.all fun text => entry.1 == Bytes.ofText text := by
  decide +kernel

private theorem classes_white (white : isWhite b = true) (word : isWord kind = true) (bytes : Bytes) (n : Nat) :
    (.token kind, some n) ∉ classes (b :: bytes) := by
  intro member
  have other : kind ≠ .newLine := by
    rintro rfl
    cases word
  have digit : isDigit b = false := by rcases white_cases white with rfl | rfl | rfl | rfl <;> rfl
  have alpha : (isAlpha b || b == 0x5F) = false := by rcases white_cases white with rfl | rfl | rfl | rfl <;> rfl
  have quote : b ≠ 0x22 := by rcases white_cases white with rfl | rfl | rfl | rfl <;> decide
  have slash : b ≠ 0x2F := by rcases white_cases white with rfl | rfl | rfl | rfl <;> decide
  have sigils : ∀ sigil ∈ [(0x24 : UInt8), 0x23, 0x40, 0x21], sigil? sigil (b :: bytes) = none := by
    rcases white_cases white with rfl | rfl | rfl | rfl <;> simp [sigil?]
  have wildcard : wildcard? (b :: bytes) = none := by simp [wildcard?, sigils]
  simp [classes, identifier_lead alpha, number_lead digit, string_lead quote, regexp_lead slash,
    blockComment_lead slash, lineComment_lead slash, sigils, wildcard, other] at member

private theorem fixedText_of_word (word : isWord kind = true) (free : kind ∉ .boolean :: fixedKinds) :
    kind.fixedText? = none := by
  revert word free
  cases kind <;> decide

theorem begins_of_lexeme (found : lexeme? .normal (bytes ++ rest) = some (.token kind, bytes.length))
    (word : isWord kind = true)
    (dotted : kind = .dot → ∀ b ∈ rest.head?, isDigit b = false) : Begins kind (bytes ++ rest) := by
  by_cases fixed : kind ∈ .boolean :: fixedKinds
  · have known := List.all_eq_true.mp fixedTexts_written _ (fixed_of_lexeme found fixed)
    simp only [Bool.and_eq_true, bne_iff_ne, ne_eq, Option.all_eq_true, Bool.not_eq_true', beq_iff_eq] at known
    obtain ⟨⟨some, black⟩, written⟩ := known
    obtain ⟨first, later, rfl⟩ := List.exists_cons_of_ne_nil some
    refine ⟨black, fun text same => ?_, fun same => ?_, fun same b more parts => ?_⟩
    · rw [written text same]
      exact List.prefix_append _ _
    · rw [same] at fixed
      exact absurd fixed (by decide)
    · have point : first :: later = [0x2E] := written "." (by rw [same]; rfl)
      rw [point] at parts
      exact dotted same b (by rw [show rest = b :: more from (List.cons.inj parts).2]; rfl)
  · have listed := class_of_lexeme found fixed
    have some : bytes ≠ [] := by
      rintro rfl
      exact absurd (candidates_fit .normal _ _ (mem_of_longest found) _ rfl).1 (Nat.lt_irrefl _)
    obtain ⟨first, later, rfl⟩ := List.exists_cons_of_ne_nil some
    refine ⟨fun b head => ?_, fun text same => ?_, fun same => ?_, fun same => ?_⟩
    · obtain rfl : first = b := Option.some.inj head
      by_contra white
      exact classes_white (by simpa using white) word _ _ listed
    · rw [fixedText_of_word word fixed] at same
      cases same
    · rw [same] at listed
      have taken : identifier? (first :: later ++ rest) = Option.some (first :: later).length := by
        simpa [classes, eq_comm] using listed
      rw [List.cons_append, identifier?] at taken
      split_ifs at taken with lead
      exact ⟨first, _, rfl, lead⟩
    · rw [same] at fixed
      exact absurd (by decide) fixed

/-! ### Words of a class -/

private theorem longest_early {lexeme : Lexeme} {back : List (Lexeme × Option Nat)} :
    ∀ {front : List (Lexeme × Option Nat)},
    longest (front ++ back) = some (lexeme, length) → (∃ candidate ∈ front, candidate.2 = some length) →
    (lexeme, some length) ∈ front
  | [], _, ⟨_, member, _⟩ => nomatch member
  | (_, none) :: front, found, ⟨candidate, member, same⟩ => by
    refine List.mem_cons_of_mem _ (longest_early found ⟨candidate, (List.mem_cons.mp member).resolve_left ?_, same⟩)
    rintro rfl
    cases same
  | (other, some n) :: front, found, ⟨candidate, member, same⟩ => by
    rw [List.cons_append, longest] at found
    split at found
    next later more longer =>
      split_ifs at found with less
      · cases found
        refine List.mem_cons_of_mem _ (longest_early longer
          ⟨candidate, (List.mem_cons.mp member).resolve_left ?_, same⟩)
        rintro rfl
        cases same
        exact absurd less (Nat.lt_irrefl _)
      · cases found
        exact List.mem_cons_self
    next =>
      cases found
      exact List.mem_cons_self

/-- What was found as a word of a class is longer than any fixed text that it begins with. -/
theorem fixeds_shorter {before : Bytes} (found : lexeme? .normal (bytes ++ before) = some (.token kind, bytes.length))
    (free : kind ∉ .boolean :: fixedKinds) : ∀ candidate ∈ fixeds bytes, ∀ n ∈ candidate.2, n < bytes.length := by
  intro candidate member n taken
  refine Nat.lt_of_le_of_ne (candidates_fit .normal bytes candidate (List.mem_append_left _ member) n taken).2 ?_
  rintro rfl
  refine free (kind_of_fixed (longest_early (lexeme_eq _ ▸ found) ?_))
  obtain ⟨entry, listed, rfl⟩ := List.mem_map.mp member
  refine ⟨_, List.mem_map_of_mem listed, ?_⟩
  have text := fixed_taken taken
  rw [List.take_length] at text
  rw [← text]
  exact if_pos (List.isPrefixOf_iff_prefix.mpr (List.prefix_append _ _))

private theorem lexeme_class {before : Bytes}
    (found : lexeme? .normal (bytes ++ before) = some (.token kind, bytes.length))
    (free : kind ∉ .boolean :: fixedKinds) (loose : Loose rest)
    (last : longest (classes (bytes ++ rest)) = some (.token kind, bytes.length)) : lexeme? .normal (bytes ++ rest) =
    some (.token kind, bytes.length) := by
  have shorter := fixeds_shorter found free
  have some : bytes ≠ [] := by
    rintro rfl
    exact absurd (candidates_fit .normal _ _ (mem_of_longest found) _ rfl).1 (Nat.lt_irrefl _)
  have dot : bytes ≠ [0x2E] := by
    rintro rfl
    exact absurd (shorter (.token .dot, Option.some 1) (by decide +kernel) 1 rfl) (Nat.lt_irrefl _)
  rw [lexeme_eq, fixeds_within (loose.whole some dot)]
  exact longest_later last shorter

/-- The word is a text, and is found among the classes in front of what goes on no word. -/
structure Again (kind : TokenKind) (bytes : Bytes) : Prop where
  text : ∃ text : List Char, bytes = Utf8.encode text
  found : ∀ rest, Loose rest → longest (classes (bytes ++ rest)) = some (.token kind, bytes.length)

private theorem wordFrom_taken (rest : Bytes) : ∃ text : List Char, rest.take (wordFrom 0 rest) = Utf8.encode text ∧
    wordFrom 0 (Utf8.encode text) = (Utf8.encode text).length := by
  induction size : rest.length using Nat.strong_induction_on generalizing rest with
  | _ n ih =>
    subst size
    cases read : Utf8.first? rest with
    | none =>
      have stops : wordFrom 0 rest = 0 := by
        cases rest with
        | nil => rfl
        | cons b rest =>
          have other : ¬(isAlpha b || b == 0x5F) = true :=
            fun lead => by simp [Utf8.first?, (word_lead lead).2.2.2.2] at read
          rw [wordFrom, if_neg other, read]
      exact ⟨[], by rw [stops]; rfl, rfl⟩
    | some found =>
      obtain ⟨c, width⟩ := found
      obtain ⟨split, _⟩ := Utf8.first?_bytes read
      generalize rest.drop width = more at split
      subst split
      have some := List.length_pos_iff.mpr (Utf8.encodeChar_ne_nil c)
      rcases wordFrom_char c with none | goes
      · exact ⟨[], by rw [none]; rfl, rfl⟩
      · obtain ⟨text, taken, whole⟩ := ih more.length (by rw [List.length_append]; omega) more rfl
        refine ⟨c :: text, ?_, ?_⟩
        · rw [goes, List.take_length_add_append, taken, Utf8.encode_char]
        · rw [Utf8.encode_char, goes, whole, List.length_append]

private theorem word_taken {before : Bytes} (whole : wordFrom 0 (bytes ++ before) = bytes.length) :
    ∃ text : List Char, bytes = Utf8.encode text ∧ wordFrom 0 (Utf8.encode text) = (Utf8.encode text).length := by
  obtain ⟨text, taken, word⟩ := wordFrom_taken (bytes ++ before)
  rw [whole, List.take_left] at taken
  exact ⟨text, taken, word⟩

private theorem sigil_taken {before : Bytes} (found : sigil? b (bytes ++ before) = some bytes.length) :
    ∃ text : List Char, bytes = b :: Utf8.encode text ∧ wordFrom 0 (Utf8.encode text) = (Utf8.encode text).length := by
  cases bytes with
  | nil => exact absurd (sigil_fits b _ _ found).1 (Nat.lt_irrefl _)
  | cons a bytes =>
    rw [List.cons_append, sigil?] at found
    split_ifs at found with same
    obtain ⟨text, rfl, whole⟩ := word_taken (Nat.succ.inj (Option.some.inj found))
    exact ⟨text, by rw [beq_iff_eq.mp same], whole⟩

private theorem classes_sigil (listed : (b, kind) ∈
    [((0x23 : UInt8), TokenKind.stringCount), (0x40, .stringOffset), (0x21, .stringLength)]) (bytes : Bytes) : longest
    (classes (b :: bytes)) = some (.token kind, wordFrom 0 bytes + 1) := by
  have sole (other : isDigit b = false) (word : (isAlpha b || b == 0x5F) = false) (black : isWhite b = false)
    (quote : b ≠ 0x22)
      (slash : b ≠ 0x2F) : classes (b :: bytes) =
        [(.token .stringName, sigil? 0x24 (b :: bytes)), (.token .stringWildcard, wildcard? (b :: bytes)),
        (.token .stringCount, sigil? 0x23 (b :: bytes)), (.token .stringOffset, sigil? 0x40 (b :: bytes)),
        (.token .stringLength, sigil? 0x21 (b :: bytes))] ++
        [(.token .identifier, none), (.token .float, none), (.token .integer, none), (.token .string, none),
        (.token .regexp, none), (.token .blockComment, none), (.token .lineComment, none), (.blank, none),
        (.token .newLine, none)] := by
    simp only [classes, identifier_lead word, number_lead other, string_lead quote, regexp_lead slash,
      blockComment_lead slash, lineComment_lead slash, blanks_lead black, newLine_lead black]
    rfl
  simp only [List.mem_cons, List.not_mem_nil, or_false, Prod.mk.injEq] at listed
  rcases listed with ⟨rfl, rfl⟩ | ⟨rfl, rfl⟩ | ⟨rfl, rfl⟩ <;> rw [sole rfl rfl rfl (by decide) (by decide)] <;> rfl

private theorem again_name {before : Bytes} (found : sigil? 0x24 (bytes ++ before) = some bytes.length) :
    Again .stringName bytes := by
  obtain ⟨text, rfl, whole⟩ := sigil_taken found
  refine ⟨⟨'$' :: text, rfl⟩, fun rest loose => ?_⟩
  rw [List.cons_append]
  refine classes_dollar (wordFrom_encode (wordFrom_loose loose) text whole) ?_
  rw [List.getElem?_append_right (Nat.le_refl _), Nat.sub_self, ← List.head?_eq_getElem?]
  exact fun first => absurd (loose.listed 0x2A first) (by decide)

private theorem again_sigil {before : Bytes}
    (listed : (b, kind) ∈ [((0x23 : UInt8), TokenKind.stringCount), (0x40, .stringOffset), (0x21, .stringLength)])
    (found : sigil? b (bytes ++ before) = some bytes.length) : Again kind bytes := by
  obtain ⟨text, rfl, whole⟩ := sigil_taken found
  refine ⟨⟨Char.ofNat b.toNat :: text, ?_⟩, fun rest loose => ?_⟩
  · rw [Utf8.encode_char]
    simp only [List.mem_cons, List.not_mem_nil, or_false, Prod.mk.injEq] at listed
    rcases listed with ⟨rfl, _⟩ | ⟨rfl, _⟩ | ⟨rfl, _⟩ <;> rfl
  · rw [List.cons_append, classes_sigil listed, wordFrom_encode (wordFrom_loose loose) text whole]
    rfl

private theorem again_wildcard {before : Bytes} (found : wildcard? (bytes ++ before) = some bytes.length) :
    Again .stringWildcard bytes := by
  obtain ⟨n, name, found⟩ := Option.bind_eq_some_iff.mp found
  split_ifs at found with star
  have size : n + 1 = bytes.length := Option.some.inj found
  have some : bytes ≠ [] := List.length_pos_iff.mp (by omega)
  obtain ⟨front, c, rfl⟩ : ∃ front c, bytes = front ++ [c] := ⟨_, _, (List.dropLast_append_getLast some).symm⟩
  obtain rfl : n = front.length := by simpa using size
  obtain rfl : c = 0x2A := by simpa using star
  rw [List.append_assoc] at name
  obtain ⟨text, rfl, whole⟩ := sigil_taken name
  refine ⟨⟨'$' :: (text ++ ['*']), by simp [Utf8.encode, String.utf8EncodeChar]⟩, fun rest _ => ?_⟩
  have word : wordFrom 0 (Utf8.encode text ++ 0x2A :: rest) = (Utf8.encode text).length :=
    wordFrom_encode rfl text whole
  rw [List.append_assoc, List.cons_append]
  simp only [classes, identifier_lead (show (isAlpha 0x24 || 0x24 == 0x5F) = false from rfl),
    number_lead (show isDigit 0x24 = false from rfl), string_lead (show (0x24 : UInt8) ≠ 0x22 by decide),
    regexp_lead (show (0x24 : UInt8) ≠ 0x2F by decide), blockComment_lead (show (0x24 : UInt8) ≠ 0x2F by decide),
    lineComment_lead (show (0x24 : UInt8) ≠ 0x2F by decide), blanks_lead (show isWhite 0x24 = false from rfl),
    newLine_lead (show isWhite 0x24 = false from rfl)]
  simp [sigil?, wildcard?, longest, word]

private theorem again_identifier {before : Bytes} (found : identifier? (bytes ++ before) = some bytes.length) :
    Again .identifier bytes := by
  cases bytes with
  | nil => exact absurd (identifier_fits _ _ found).1 (Nat.lt_irrefl _)
  | cons b bytes =>
    rw [List.cons_append, identifier?] at found
    split_ifs at found with lead
    obtain ⟨text, rfl, whole⟩ := word_taken (Nat.succ.inj (Option.some.inj found))
    refine ⟨⟨Char.ofNat b.toNat :: text, ?_⟩, fun rest loose => ?_⟩
    · have small : b.toNat < 128 := UInt8.lt_iff_toNat_lt.mp (word_lead lead).2.2.2.2
      rw [Utf8.encode_char, (marks_ascii b.toNat small).1, UInt8.ofNat_toNat]
      rfl
    · rw [List.cons_append, classes_word lead, wordFrom_encode (wordFrom_loose loose) text whole]
      rfl

/-! ### Numbers -/

private theorem float_taken {before : Bytes} (found : float? (bytes ++ before) = some bytes.length) :
    ∃ whole fraction : Bytes, bytes = whole ++ 0x2E :: fraction ∧ (whole ≠ [] ∧ ∀ b ∈ whole, isDigit b = true) ∧
    fraction ≠ [] ∧ ∀ b ∈ fraction, isDigit b = true := by
  obtain ⟨w, whole, found⟩ := Option.bind_eq_some_iff.mp found
  split at found
  next behind dot =>
    obtain ⟨f, fraction, found⟩ := Option.bind_eq_some_iff.mp found
    have size : w + 1 + f = bytes.length := Option.some.inj found
    refine ⟨(bytes ++ before).take w, behind.take f, ?_, run1_all whole, run1_all fraction⟩
    calc bytes = (bytes ++ before).take (w + (1 + f)) := by rw [← Nat.add_assoc, size, List.take_left]
      _ = (bytes ++ before).take w ++ (0x2E :: behind).take (f + 1) := by rw [List.take_add, dot, Nat.add_comm 1 f]
  next => cases found

private theorem again_float {before : Bytes} (found : float? (bytes ++ before) = some bytes.length) :
    Again .float bytes := by
  obtain ⟨whole, fraction, rfl, ⟨some, digits⟩, some', digits'⟩ := float_taken found
  refine ⟨⟨_, (ofText_ascii ?_).symm.trans (by rw [Bytes.ofText, String.toList_ofList])⟩, fun rest loose => ?_⟩
  · refine List.forall_mem_append.mpr ⟨(Numeral.decimal some digits).ascii, List.forall_mem_cons.mpr ⟨by decide, ?_⟩⟩
    exact (Numeral.decimal some' digits').ascii
  · have first : run1? isDigit (whole ++ 0x2E :: (fraction ++ rest)) = Option.some whole.length :=
      run1_append digits some (by rintro _ ⟨⟩; rfl)
    have second : run1? isDigit (fraction ++ rest) = Option.some fraction.length :=
      run1_append digits' some' fun b head => (loose.halts.listed b head).1
    have float : float? (whole ++ 0x2E :: (fraction ++ rest)) = Option.some (whole.length + 1 + fraction.length) := by
      simp only [float?, first, Option.bind_eq_bind, Option.bind_some, List.drop_left, second, Option.pure_def]
    have integer : integer? true (whole ++ 0x2E :: (fraction ++ rest)) = Option.some whole.length :=
      integer_plain digits some (by rintro _ ⟨⟩; decide)
    obtain ⟨d, more, rfl⟩ := List.exists_cons_of_ne_nil some
    have lead := digits d List.mem_cons_self
    rw [List.append_assoc, List.cons_append (a := 0x2E), List.cons_append (a := d), classes_digit lead,
      ← List.cons_append (a := d), float, integer]
    simp only [longest, List.length_append, List.length_cons]
    rw [if_neg (by omega)]
    congr 2
    omega

private theorem float_unit {mark : UInt8} {more : Bytes} (digits : ∀ b ∈ bytes, isDigit b = true) (some : bytes ≠ [])
    (letter : isDigit mark = false) (dot : mark ≠ 0x2E) : float? (bytes ++ mark :: more) = none := by
  have run : run1? isDigit (bytes ++ mark :: more) = Option.some bytes.length :=
    run1_append digits some (by rintro _ ⟨⟩; exact letter)
  simp only [float?, run, Option.bind_eq_bind, Option.bind_some, List.drop_left]
  split
  next same => exact absurd (List.cons.inj same).1 dot
  next => rfl

private theorem integer_unit {unit : UInt8} {more : Bytes} (digits : ∀ b ∈ bytes, isDigit b = true) (some : bytes ≠ [])
    (listed : unit = 0x4B ∨ unit = 0x4D) : integer? true (bytes ++ unit :: 0x42 :: more) =
    Option.some (bytes.length + 2) := by
  have known : isDigit unit = false ∧ unit ≠ 0x78 ∧ unit ≠ 0x6F := by rcases listed with rfl | rfl <;> decide
  have run : run1? isDigit (bytes ++ unit :: 0x42 :: more) = Option.some bytes.length :=
    run1_append digits some (by rintro _ ⟨⟩; exact known.1)
  have one : based? 0x78 isHexDigit (bytes ++ unit :: 0x42 :: more) = none :=
    based_digits isHexDigit digits some rfl (by rintro _ ⟨⟩; exact known.2.1)
  have two : based? 0x6F isOctalDigit (bytes ++ unit :: 0x42 :: more) = none :=
    based_digits isOctalDigit digits some rfl (by rintro _ ⟨⟩; exact known.2.2)
  simp only [integer?, one, two, Option.none_or, decimal?, run, Option.bind_eq_bind, Option.bind_some, List.drop_left]
  exact congrArg Option.some (if_pos (by simpa using listed))

private theorem lexeme_integer {value : Nat} (writes : Writes true bytes value) (loose : Loose rest) :
    lexeme? .normal (bytes ++ rest) = some (.token .integer, bytes.length) := by
  have alone {d : UInt8} {more : Bytes} {length : Nat} (lead : isDigit d = true) (float : float? (d :: more) = none)
      (integer : integer? true (d :: more) = some length) : lexeme? .normal (d :: more) =
        some (.token .integer, length) := by
    rw [lexeme_eq, longest_none (fixeds_none (digit_lead lead).2.2.2.2 _), classes_digit lead, float, integer]
    rfl
  have unit {digits : Bytes} {u : UInt8} (some : digits ≠ []) (all : ∀ b ∈ digits, isDigit b = true)
    (listed : u = 0x4B ∨ u = 0x4D) :
      lexeme? .normal (digits ++ [u, 0x42] ++ rest) = Option.some (.token .integer, (digits ++ [u, 0x42]).length) := by
    have float : float? (digits ++ u :: 0x42 :: rest) = none :=
      float_unit all some (by rcases listed with rfl | rfl <;> rfl) (by rcases listed with rfl | rfl <;> decide)
    have integer : integer? true (digits ++ u :: 0x42 :: rest) = _ := integer_unit all some listed
    rw [List.append_assoc, List.length_append]
    obtain ⟨d, more, rfl⟩ := List.exists_cons_of_ne_nil some
    exact alone (all d List.mem_cons_self) float integer
  have number {mark : UInt8} {more : Bytes} (letter : isDigit mark = false) (dot : mark ≠ 0x2E) :
      float? (0x30 :: mark :: more) = none :=
    float_unit (List.forall_mem_singleton.mpr rfl) (List.cons_ne_nil _ _) letter dot
  have based {p : UInt8 → Bool} {digits : Bytes} (some : digits ≠ []) (all : ∀ b ∈ digits, p b = true)
      (none : looseBytes.all fun b => !p b) : run1? p (digits ++ rest) = Option.some digits.length :=
        run1_append all some (loose.not none)
  cases writes with
  | decimal some all => exact lexeme_digits all some loose.halts
  | kilobytes _ some all => exact unit some all (.inl rfl)
  | megabytes _ some all => exact unit some all (.inr rfl)
  | @hexadecimal digits some all =>
    have float : float? (0x30 :: 0x78 :: (digits ++ rest)) = none := number rfl (by decide)
    refine alone rfl float (show integer? true (0x30 :: 0x78 :: (digits ++ rest)) =
      Option.some (digits.length + 2) from ?_)
    simp only [integer?, based?, BEq.rfl, if_true, based some all (by decide), Option.map_some, Option.some_or]
  | @octal digits some all =>
    have float : float? (0x30 :: 0x6F :: (digits ++ rest)) = none := number rfl (by decide)
    refine alone rfl float (show integer? true (0x30 :: 0x6F :: (digits ++ rest)) =
      Option.some (digits.length + 2) from ?_)
    simp only [integer?, based?, BEq.rfl, if_true, show ((0x6F : UInt8) == 0x78) = false from rfl, Bool.false_eq_true,
      if_false, based some all (by decide), Option.map_some, Option.some_or, Option.none_or]

/-! ### Strings -/

/-- A quote behind the bytes closes the string, and none before it does. -/
def Enclosed (bytes rest : Bytes) : Prop := stringFrom 0 (bytes ++ 0x22 :: rest) = some (bytes.length + 1)

private theorem map_length {found : Option Nat} {front back : Bytes} (n : Nat) (size : front.length = n + back.length) :
    found.map (· + n) = some (front.length + 1) ↔ found = some (back.length + 1) := by
  cases found with
  | none => simp
  | some m =>
    rw [Option.map_some, Option.some.injEq, Option.some.injEq]
    omega

private theorem closed_plain {front : Bytes} (plain : ∀ b ∈ front, Text.means b = true) :
    Enclosed (front ++ bytes) rest ↔ Enclosed bytes rest := by
  rw [Enclosed, List.append_assoc, stringFrom_plain _ front plain, map_length front.length List.length_append]
  rfl

/-- A backslash takes the next character with it, if that does not end the line. -/
theorem closed_escaped (c : Char) : Enclosed (0x5C :: (String.utf8EncodeChar c ++ bytes)) rest ↔ c ≠ '\n' ∧
    Enclosed bytes rest := by
  rw [Enclosed, List.cons_append, List.append_assoc, stringFrom]
  simp only [show ((0x5C : UInt8) == 0x22) = false from rfl, show ((0x5C : UInt8) == 0x0A) = false from rfl,
    Bool.false_eq_true, if_false, BEq.rfl, if_true, Utf8.first?_encode, beq_iff_eq]
  by_cases feed : c = '\n'
  · simp [feed]
  · rw [if_neg feed, stringFrom_skip, Option.map_map]
    refine (map_length ((String.utf8EncodeChar c).length + 1) ?_).trans (and_iff_right feed).symm
    rw [List.length_cons, List.length_append]
    omega

private theorem hexPair_plain (b : UInt8) : (Utf8.encode (Text.hexPair b.toNat)).all Text.means = true := by
  have known : ∀ n < 16, (String.utf8EncodeChar (Text.hexDigit n)).all Text.means = true := by decide
  have most := b.toNat_lt
  simp [Utf8.encode, Text.hexPair, known (b.toNat / 16) (by omega), known (b.toNat % 16) (by omega)]

/-- What is written out closes where the bytes do. -/
theorem Enclosed.written {before : Bytes} (closed : Enclosed bytes before) (legible : Text.Legible bytes text)
    (rest : Bytes) : Enclosed (Utf8.encode text) rest := by
  induction legible with
  | nil => simp [Enclosed, Utf8.encode, stringFrom]
  | @char c behind text plain _ ih =>
    have meant : ∀ b ∈ String.utf8EncodeChar c, Text.means b = true := by
      obtain ⟨d, _, same, single⟩ | high := Utf8.encodeChar_cases c
      · have other : d ≠ 0x22 ∧ d ≠ 0x0A := by
          constructor <;> rintro rfl <;> simp [Enclosed, single, stringFrom] at closed
        have backslash : d ≠ 0x5C := by
          rintro rfl
          exact plain same
        simp [single, Text.means, other, backslash]
      · exact fun b member => Text.means_high (high b member)
    rw [Utf8.encode_char, closed_plain meant]
    exact ih ((closed_plain meant).mp closed)
  | @broken b behind text high _ ih =>
    have split : Utf8.encode ('\\' :: 'x' :: Text.hexPair b.toNat ++ text) =
        0x5C :: (String.utf8EncodeChar 'x' ++ (Utf8.encode (Text.hexPair b.toNat) ++ Utf8.encode text)) := by
      simp [Utf8.encode, String.utf8EncodeChar]
    have itself : ∀ t ∈ [b], Text.means t = true := List.forall_mem_singleton.mpr (Text.means_high high)
    rw [split, closed_escaped, closed_plain (List.all_eq_true.mp (hexPair_plain b))]
    exact ⟨by decide, ih ((closed_plain itself).mp closed)⟩
  | @escape c behind text _ ih =>
    obtain ⟨feed, later⟩ := (closed_escaped c).mp closed
    rw [Utf8.encode_char, Utf8.encode_char]
    exact (closed_escaped c).mpr ⟨feed, ih later⟩

private theorem string_again {before : Bytes} (found : string? (bytes ++ before) = some bytes.length) :
    ∃ inner, bytes = 0x22 :: inner ++ [0x22] ∧
    ∀ rest, lexeme? .normal (Bytes.ofText ("\"" ++ Text.readable inner ++ "\"") ++ rest) =
      some (.token .string, (Bytes.ofText ("\"" ++ Text.readable inner ++ "\"")).length) := by
  obtain ⟨inner, whole⟩ := string_quoted found
  rw [List.take_left] at whole
  subst whole
  refine ⟨inner, rfl, fun rest => ?_⟩
  have closed : Enclosed inner before := by
    have run : (stringFrom 0 (inner ++ 0x22 :: before)).map (· + 1) = some (0x22 :: inner ++ [0x22]).length := by
      rw [← found, List.append_assoc]
      rfl
    exact (map_length 1 (by simp [Nat.add_comm])).mp (run.trans (by simp : _ = some ((0x22 :: inner).length + 1)))
  have written : Bytes.ofText ("\"" ++ Text.readable inner ++ "\"") = 0x22 ::
      (Utf8.encode (Text.readableFrom 0 false inner) ++ [0x22]) := by
    simp [Bytes.ofText, Utf8.encode, Text.readable, String.utf8EncodeChar]
  have again : Enclosed _ rest := closed.written (legible_of_string closed) rest
  have run : string? (0x22 :: (Utf8.encode (Text.readableFrom 0 false inner) ++ 0x22 :: rest)) = _ :=
    congrArg (Option.map (· + 1)) again
  rw [written, List.cons_append, List.append_assoc, List.singleton_append, lexeme_quote, run]
  simp

/-! ### Regular expressions -/

private theorem regexpFrom_more : ∀ (bytes : Bytes) (s : RegexpState) (n : Nat)
    (best : Option Nat), regexpFrom s n best bytes = some length →
    best = some length ∨ n < length
  | [], _, _, _, found => .inl found
  | b :: rest, s, n, best, found => by
    rw [regexpFrom] at found
    dsimp only at found
    split_ifs at found with dead closed body
    · exact .inl found
    · rcases regexpFrom_more rest _ _ _ found with same | more
      · exact .inr (by rw [← Option.some.inj same]; exact Nat.lt_succ_self n)
      · exact .inr (Nat.lt_of_succ_lt more)
    · rcases regexpFrom_more rest _ _ _ found with same | more
      · cases same
      · exact .inr (Nat.lt_of_succ_lt more)
    · rcases regexpFrom_more rest _ _ _ found with same | more
      · exact .inl same
      · exact .inr (Nat.lt_of_succ_lt more)

private theorem closes_broken {cs : List Char} (closed : closes false cs = true) (broken : Bytes) :
    closes false (broken.flatMap (fun b => '\\' :: 'x' :: Text.hexPair b.toNat) ++ cs) = true := by
  have known : ∀ n < 16, Text.hexDigit n ≠ '/' ∧ Text.hexDigit n ≠ '\\' ∧ Text.hexDigit n ≠ '\n' := by decide
  induction broken with
  | nil => exact closed
  | cons b broken ih =>
    have most := b.toNat_lt
    obtain ⟨slash, backslash, feed⟩ := known (b.toNat / 16) (by omega)
    obtain ⟨slash', backslash', feed'⟩ := known (b.toNat % 16) (by omega)
    simpa [Text.hexPair, closes, slash, backslash, feed, slash', backslash', feed'] using ih

private theorem first_beyond {before : Bytes} {c : Char} {width : Nat} (none : Utf8.first? bytes = none)
    (read : Utf8.first? (bytes ++ before) = some (c, width)) : ∃ more,
    bytes ++ before = String.utf8EncodeChar c ++ more ∧
      bytes.length < (String.utf8EncodeChar c).length := by
  obtain ⟨split, _⟩ := Utf8.first?_bytes read
  refine ⟨_, split, ?_⟩
  obtain ⟨behind, whole, _⟩ | ⟨behind, whole, _⟩ := List.append_eq_append_iff.mp split
  · cases behind with
    | nil =>
      have itself := Utf8.first?_encode c []
      rw [whole, List.append_nil, List.append_nil, none] at itself
      cases itself
    | cons => simp [whole]
  · rw [whole, Utf8.first?_encode] at none
    cases none

/-- What the reading takes closes the regular expression also where bytes are written out. -/
theorem accepts_of_regexpFrom {before : Bytes} (s : RegexpState) (n : Nat) (best : Option Nat)
    (here : best = some n → s.closed.isSome = true) (most : ∀ m ∈ best, m ≤ n)
    (found : regexpFrom s n best (bytes ++ before) = some (n + bytes.length)) : s.accepts
    (Text.readableFrom 0 false bytes) = true := by
  have nothing (s : RegexpState) (n : Nat) :
      ((none : Option Nat) = some n → s.closed.isSome = true) ∧ ∀ m ∈ (none : Option Nat), m ≤ n := by
    simp
  induction size : bytes.length using Nat.strong_induction_on generalizing bytes s n best with
  | _ k ih =>
    subst size
    have early (m : Nat) (more : n < m) : best ≠ some m := fun same => by
      have := most m same
      omega
    cases bytes with
    | nil =>
      have same := (regexpFrom_more _ _ _ _ found).resolve_right (Nat.lt_irrefl _)
      exact (s.accepts_nil).trans (here same)
    | cons b tail =>
      rw [List.length_cons] at found ih
      cases read : Utf8.first? (b :: tail) with
      | some result =>
        obtain ⟨c, width⟩ := result
        obtain ⟨split, _⟩ := Utf8.first?_bytes read
        generalize (b :: tail).drop width = more at split
        have some := List.length_pos_iff.mpr (Utf8.encodeChar_ne_nil c)
        have total : tail.length + 1 = (String.utf8EncodeChar c).length + more.length := by
          rw [← List.length_cons (a := b), split, List.length_append]
        rw [split, List.append_assoc, regexpFrom_char, total, ← Nat.add_assoc] at found
        rw [split, Text.readableFrom_char, RegexpState.accepts_cons]
        split_ifs at found with dead closed body
        · exact absurd found (early _ (by omega))
        · exact ih _ (by omega) _ _ _ (fun _ => closed) (fun m same => by rw [← Option.some.inj same]) found rfl
        · exact ih _ (by omega) _ _ none (nothing _ _).1 (nothing s _).2 found rfl
        · exact ih _ (by omega) _ _ _ (fun same => absurd same (early _ (by omega))) (fun m same =>
            Nat.le_trans (most m same) (by omega)) found rfl
      | none =>
        obtain ⟨front, back, rfl, width, high⟩ := Utf8.broken_bytes read
        have written : Text.readableFrom 0 false (b :: (front ++ back)) =
            (b :: front).flatMap (fun b => '\\' :: 'x' :: Text.hexPair b.toNat) ++ Text.readableFrom 0 false back := by
          rw [Text.readableFrom, read]
          dsimp only
          rw [← width, Text.readableFrom_broken, List.flatMap_cons, List.append_assoc]
        cases beyond : Utf8.first? (b :: (front ++ back) ++ before) with
        | some result =>
          obtain ⟨more, split, longer⟩ := first_beyond read beyond
          rw [List.length_cons] at longer
          rw [split, regexpFrom_char] at found
          split_ifs at found with dead closed body
          · exact absurd found (early _ (by omega))
          · rcases regexpFrom_more _ _ _ _ found with same | more
            · have := Option.some.inj same
              omega
            · omega
          · rcases regexpFrom_more _ _ _ _ found with same | more
            · cases same
            · omega
          · rcases regexpFrom_more _ _ _ _ found with same | more
            · exact absurd same (early _ (by omega))
            · omega
        | none =>
          obtain ⟨backslash, slash, feed, _, letter⟩ := byte_high (high b List.mem_cons_self)
          have step : s.step b false = { body := s.body } := by
            cases closed : s.closed <;> simp [RegexpState.step, bne, backslash, slash, feed, letter, closed]
          rw [List.cons_append, regexpFrom, ← List.cons_append, beyond] at found
          simp only [step] at found
          cases body : s.body with
          | false =>
            simp only [body, RegexpState.isDead, Bool.not_false, Bool.and_self, Option.isNone_none, if_true] at found
            exact absurd found (early _ (by omega))
          | true =>
            simp only [body, RegexpState.isDead, Bool.not_true, Bool.false_and, Bool.false_eq_true, if_false,
              Option.isSome_none, if_true] at found
            rw [List.append_assoc, regexpFrom_tail _ _ _ fun t member => high t (List.mem_cons_of_mem _ member),
              List.length_append] at found
            have rest := ih back.length (by rw [List.length_append]; omega) { body := true } (n + 1 + front.length) none
              (nothing _ _).1 (nothing s _).2
              (found.trans (congrArg some (by omega))) rfl
            have closed : closes false (Text.readableFrom 0 false back) = true := by
              simpa [RegexpState.accepts] using rest
            rw [written, RegexpState.accepts, body, closes_broken closed]
            rfl

private theorem encloses_of_regexp {before : Bytes} (found : regexp? (bytes ++ before) = some bytes.length) :
    ∃ inner, bytes = 0x2F :: inner ∧ encloses (Text.readableFrom 0 false inner) = true := by
  have longer {s : RegexpState} {n : Nat} {rest : Bytes} (found : regexpFrom s n none rest = some bytes.length) :
      n < bytes.length :=
    (regexpFrom_more _ _ _ _ found).resolve_left (by simp)
  obtain ⟨b, inner, rfl⟩ : ∃ b inner, bytes = 0x2F :: b :: inner := by
    unfold regexp? at found
    split at found
    next b rest same =>
      have enough : 2 < bytes.length := by
        split_ifs at found
        · exact longer found
        · exact longer found
      obtain ⟨a, b', inner, rfl⟩ : ∃ a b' inner, bytes = a :: b' :: inner := by
        rcases bytes with _ | ⟨a, _ | ⟨b', inner⟩⟩
        · simp at enough
        · simp at enough
        · exact ⟨a, b', inner, rfl⟩
      obtain ⟨rfl, _⟩ := List.cons.inj same
      exact ⟨b', inner, rfl⟩
    next => cases found
  refine ⟨_, rfl, ?_⟩
  rw [List.cons_append] at found
  cases read : Utf8.first? (b :: inner) with
  | some result =>
    obtain ⟨c, width⟩ := result
    obtain ⟨split, _⟩ := Utf8.first?_bytes read
    generalize (b :: inner).drop width = more at split
    rw [split, List.append_assoc, regexp_first, List.length_cons, List.length_append] at found
    rw [split, Text.readableFrom_char, encloses]
    split_ifs at found with comment
    have accepted := accepts_of_regexpFrom _ _ none (by simp) (by simp) (found.trans (congrArg some (by omega)))
    rw [Bool.or_eq_true, not_or, Bool.not_eq_true, Bool.not_eq_true] at comment
    simpa [RegexpState.accepts, bne, comment] using accepted
  | none =>
    obtain ⟨_, _, _, _, high⟩ := Utf8.broken_bytes read
    obtain ⟨backslash, slash, _, star, _⟩ := byte_high (high b List.mem_cons_self)
    have run := found
    rw [List.cons_append, regexp?, star, slash, backslash] at run
    simp only [Bool.or_self, Bool.false_eq_true, if_false] at run
    split_ifs at run with whole
    obtain ⟨⟨c, width⟩, beyond⟩ := Option.isSome_iff_exists.mp whole
    obtain ⟨more, split, long⟩ := first_beyond read beyond
    rw [split, regexp_first] at found
    split_ifs at found
    have := longer found
    rw [List.length_cons] at this
    omega

/-- Nothing but backslashes stands between the slashes. The first one may stand for itself, so the reading
of such a text may go on behind it. -/
def onlyBackslashes (text : String) : Bool :=
  match text.toList with
  | '/' :: inner =>
    match inner.dropWhile (· == '\\') with
    | '/' :: letters => Short letters
    | _ => false
  | _ => false

private theorem sealed_of_encloses {cs : List Char} (closed : encloses cs = true)
    (other : onlyBackslashes (String.ofList ('/' :: cs)) = false) : Sealed (String.ofList ('/' :: cs)) := by
  obtain ⟨content, letters, rfl, valid, short⟩ := encloses_iff.mp closed
  refine ⟨content, letters, String.toList_ofList, valid, short, ?_⟩
  by_contra! none
  have passed : (content ++ '/' :: letters).dropWhile (· == '\\') = '/' :: letters := by
    rw [List.dropWhile_append_of_pos fun c member => beq_iff_eq.mpr (none c member)]
    rfl
  simp only [onlyBackslashes, String.toList_ofList, passed] at other
  exact absurd short (of_decide_eq_false other)

private theorem regexp_again {before : Bytes} (found : regexp? (bytes ++ before) = some bytes.length)
    (other : onlyBackslashes (Text.readable bytes) = false)
    (loose : Loose rest) : lexeme? .normal (Bytes.ofText (Text.readable bytes) ++ rest) =
      some (.token .regexp, (Bytes.ofText (Text.readable bytes)).length) := by
  obtain ⟨inner, rfl, closed⟩ := encloses_of_regexp found
  exact lexeme_sealed (sealed_of_encloses closed other) (loose.not (by decide))

/-! ### Tokens -/

/-- The text of the token is found in front of the rest, as a token like this one. -/
structure Reread (token : Token) (rest : Bytes) : Prop where
  found : lexeme? .normal (Bytes.ofText (Grammar.shown token) ++ rest) =
    some (.token token.kind, (Bytes.ofText (Grammar.shown token)).length)
  made : ∀ location, makeToken token.kind (Bytes.ofText (Grammar.shown token)) location =
    .ok { kind := token.kind, location, literal := token.literal }

private theorem makeToken_again {token : Token} {location : Location} (made : makeToken kind bytes location = .ok token)
    (word : kind.isComment = false)
    (there : Location) : makeToken kind bytes there = .ok { kind, location := there, literal := token.literal } := by
  unfold makeToken at made ⊢
  split at made
  case h_2 =>
    split at made
    next => cases made; rfl
    next => cases made
  all_goals
    cases made
    simp_all

private theorem word_mode {mode : Mode} (found : lexeme? mode bytes = some (.token kind, length))
    (word : isWord kind = true) : mode = .normal ∨ kind = .integer ∧ Numeral (bytes.take length) := by
  have listed := lexeme_listed found
  cases mode with
  | normal => exact .inl rfl
  | hexPattern =>
    have none : (candidates .hexPattern bytes).all fun candidate => match candidate.1 with
        | .token kind => !isWord kind
        | .blank => true := rfl
    simpa [word] using List.all_eq_true.mp none _ listed
  | hexJump =>
    simp only [candidates, List.mem_cons, Prod.mk.injEq, Lexeme.token.injEq, List.not_mem_nil, or_false, reduceCtorEq,
      false_and, false_or] at listed
    rcases listed with ⟨rfl, _⟩ | ⟨rfl, _⟩ | ⟨rfl, _⟩ | ⟨rfl, _⟩
    · cases word
    · exact .inr ⟨rfl, number_inside found⟩
    · cases word
    · cases word

/-- Words are written in one way only, or they are names, numbers, strings or regular expressions. -/
theorem word_cases (word : isWord kind = true) :
    kind ∈ .boolean :: fixedKinds ∨
    (kind ∈ [.stringName, .stringWildcard, .stringCount, .stringOffset, .stringLength, .identifier, .float] ∧
    kind ∉ .boolean :: fixedKinds) ∨ kind = .integer ∨ kind = .string ∨ kind = .regexp := by
  revert word
  cases kind <;> decide

private theorem again_of_class {before : Bytes} (found : (.token kind, some bytes.length) ∈ classes (bytes ++ before))
    (named : kind ∈ [.stringName, .stringWildcard, .stringCount, .stringOffset, .stringLength, .identifier,
    .float]) : Again kind bytes := by
  simp only [List.mem_cons, List.not_mem_nil, or_false] at named
  simp only [classes, List.mem_cons, Prod.mk.injEq, Lexeme.token.injEq, List.not_mem_nil, or_false] at found
  rcases named with rfl | rfl | rfl | rfl | rfl | rfl | rfl <;>
    simp only [reduceCtorEq, false_and, false_or, or_false, true_and] at found
  · exact again_name found.symm
  · exact again_wildcard found.symm
  · exact again_sigil (by simp) found.symm
  · exact again_sigil (by simp) found.symm
  · exact again_sigil (by simp) found.symm
  · exact again_identifier found.symm
  · exact again_float found.symm

section

variable {before : Bytes} {location : Location} {token : Token}

private theorem reread_text {chars : List Char} (same : bytes = Utf8.encode chars)
    (shaped : Shaped (.token token.kind) bytes) (made : makeToken token.kind bytes location = .ok token)
    (comment : token.kind.isComment = false)
    (again : lexeme? .normal (bytes ++ rest) = some (.token token.kind, bytes.length)) : Reread token rest := by
  have text : Bytes.ofText (String.ofList chars) = bytes := by rw [Bytes.ofText, String.toList_ofList, same]
  rw [← text] at made shaped again
  have shown : Grammar.shown token = String.ofList chars := makeToken_text shaped made
  exact ⟨by rw [shown]; exact again, fun there => by rw [shown]; exact makeToken_again made comment there⟩

private theorem reread_string (found : lexeme? .normal (bytes ++ before) = some (.token .string, bytes.length))
    (same : token.kind = .string) (made : makeToken .string bytes location = .ok token) : Reread token rest := by
  have taken : string? (bytes ++ before) = some bytes.length := by
    simpa [classes, eq_comm] using class_of_lexeme found (by decide)
  obtain ⟨inner, rfl, again⟩ := string_again taken
  have literal : token.literal = .ofWritten (Text.readable inner) := by
    rw [← Except.ok.inj made]
    simp
  have shown : Grammar.shown token = "\"" ++ Text.readable inner ++ "\"" := by
    rw [Grammar.shown, same, literal]
    rfl
  refine ⟨by rw [shown, same]; exact again rest, fun there => ?_⟩
  have middle : ((Bytes.ofText ("\"" ++ Text.readable inner ++ "\"")).drop 1).dropLast =
      Bytes.ofText (Text.readable inner) := by
    rw [ofText_append, ofText_append]
    exact List.dropLast_concat
  rw [shown, same, makeToken, middle, Text.readable_ofText, literal]

private theorem reread_regexp (found : lexeme? .normal (bytes ++ before) = some (.token .regexp, bytes.length))
    (same : token.kind = .regexp) (made : makeToken .regexp bytes location = .ok token)
    (clear : onlyBackslashes (Grammar.shown token) = false) (loose : Loose rest) : Reread token rest := by
  have taken : regexp? (bytes ++ before) = some bytes.length := by
    simpa [classes, eq_comm] using class_of_lexeme found (by decide)
  have literal : token.literal = .ofWritten (Text.readable bytes) := by
    rw [← Except.ok.inj made]
  have shown : Grammar.shown token = Text.readable bytes := by
    rw [Grammar.shown, same, literal]
    rfl
  refine ⟨by rw [shown, same]; exact regexp_again taken (shown ▸ clear) loose, fun there => ?_⟩
  rw [shown, same, literal]
  show Except.ok _ = _
  rw [Text.readable_ofText]
  rfl

private theorem integer_writes {mode : Mode}
    (found : lexeme? mode (bytes ++ before) = some (.token .integer, bytes.length)) : ∃ value,
    Writes true bytes value := by
  rcases word_mode found rfl with rfl | ⟨_, numeral⟩
  · have taken : integer? true (bytes ++ before) = some bytes.length := by
      simpa [classes, eq_comm] using class_of_lexeme found (by decide)
    simpa using writes_of_integer taken
  · rw [List.take_left] at numeral
    cases numeral with
    | decimal some all => exact ⟨_, .decimal some all⟩
    | hexadecimal some all => exact ⟨_, .hexadecimal some all⟩
    | octal some all => exact ⟨_, .octal some all⟩

private theorem fixed_encoded (listed : (bytes, kind) ∈ fixedTexts) : ∃ chars, bytes = Utf8.encode chars := by
  obtain same | same | ⟨kind, known, same⟩ : _ ∨ _ ∨ _ := by
    simpa only [fixedTexts, List.mem_cons, List.mem_map] using listed
  · exact ⟨_, (Prod.mk.inj same).1⟩
  · exact ⟨_, (Prod.mk.inj same).1⟩
  · exact ⟨_, (Prod.mk.inj same).1.symm⟩

private theorem Leaves.loose_of_free (leaves : Leaves kind rest) (free : kind ∉ .boolean :: fixedKinds) :
    Loose rest := by
  refine leaves.loose ?_ ?_
  · revert free
    cases kind <;> decide
  · rintro rfl
    exact free (by decide)

/-- A token that was found is found again by its text, in front of what leaves it. -/
theorem found_again {file : Option String} {s s' : State} (done : step file s = .found token s')
    (word : isWord token.kind = true)
    (clear : token.kind = .regexp → onlyBackslashes (Grammar.shown token) = false)
    (leaves : Leaves token.kind rest) : Reread token rest := by
  obtain ⟨mode, kind, length, found, _, role, ⟨location, made⟩, _⟩ := found_mode done
  obtain rfl : kind = token.kind := by
    rcases role with same | ⟨_, brace⟩
    · exact same.symm
    · rw [brace] at word
      cases word
  have shaped := candidates_shaped mode s.rest _ (mem_of_longest found) length rfl
  have enough : length ≤ s.rest.length := (candidates_fit mode s.rest _ (mem_of_longest found) length rfl).2
  obtain ⟨bytes, before, split, rfl⟩ : ∃ bytes before, s.rest = bytes ++ before ∧ bytes.length = length :=
    ⟨_, _, (List.take_append_drop length s.rest).symm, by rw [List.length_take, Nat.min_eq_left enough]⟩
  rw [split] at found
  rw [split, List.take_left] at made shaped
  have comment : token.kind.isComment = false := by
    revert word
    cases token.kind <;> decide
  have normal (other : token.kind ≠ .integer) :
      lexeme? .normal (bytes ++ before) = some (.token token.kind, bytes.length) := by
    rcases word_mode found word with rfl | ⟨same, _⟩
    · exact found
    · exact absurd same other
  rcases word_cases word with fixed | ⟨named, free⟩ | same | same | same
  · have listed := fixed_of_lexeme (normal fun same => by rw [same] at fixed; revert fixed; decide) fixed
    obtain ⟨chars, encoded⟩ := fixed_encoded listed
    exact reread_text encoded shaped made comment (lexeme_fixed listed leaves)
  · have here := normal fun same => by rw [same] at named; revert named; decide
    obtain ⟨⟨text, same⟩, last⟩ := again_of_class (class_of_lexeme here free) named
    have loose := leaves.loose_of_free free
    exact reread_text same shaped made comment (lexeme_class here free loose (last rest loose))
  · rw [same] at found
    obtain ⟨value, writes⟩ := integer_writes found
    have again := lexeme_integer writes (leaves.loose_of_free (by rw [same]; decide))
    rw [← same] at again
    exact reread_text writes.toText.symm shaped made comment again
  · have here := normal (by rw [same]; decide)
    rw [same] at here made
    exact reread_string here same made
  · have here := normal (by rw [same]; decide)
    have loose := leaves.loose_of_free (by rw [same]; decide)
    rw [same] at here made
    exact reread_regexp here same made (clear same) loose

end

end Lexer

end YaraRules
