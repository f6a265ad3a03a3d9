import YaraRules.Grammar.Basic
import YaraRules.Proofs.EscapeSequences
import YaraRules.Proofs.LexerWords
import YaraRules.Proofs.ReadDepths

/-! Strings of a source that need not be valid UTF-8. A byte that belongs to no character is kept
as an escape sequence of its own, before the sequences are read. The lexer takes no backslash
before such a byte, so the sequences of the text are those of the source. -/

namespace YaraRules

/-! ### Bytes of characters -/

namespace Utf8

variable {bytes rest : Bytes} {c : Char} {width : Nat}

theorem val_ofNat {v : Nat} (valid : v.isValidChar) : (Char.ofNat v).val.toNat = v := by
  rw [Char.ofNat, dif_pos valid]
  rfl

/-- What is read as a character are its bytes. -/
theorem first?_bytes (found : first? bytes = some (c, width)) :
    bytes = String.utf8EncodeChar c ++ bytes.drop width ∧ (String.utf8EncodeChar c).length = width := by
  have byte {n : Nat} {b : UInt8} (same : n = b.toNat) : UInt8.ofNat n = b := by rw [same, UInt8.ofNat_toNat]
  unfold first? at found
  split at found
  · cases found
  next a rest =>
    split_ifs at found with ascii short long
    · cases found
      have small : a.toNat < 0x80 := UInt8.lt_iff_toNat_lt.mp ascii
      have same := val_ofNat (v := a.toNat) (.inl (by omega))
      rw [String.utf8EncodeChar.eq_1, same, if_pos (by omega), byte rfl]
      exact ⟨rfl, rfl⟩
    · split at found
      next b tail =>
        split_ifs at found with shaped
        cases found
        simp only [Bool.and_eq_true, decide_eq_true_eq, isTail_iff, UInt8.le_iff_toNat_le, UInt8.reduceToNat] at shaped
        have high : a.toNat < 0xE0 := UInt8.lt_iff_toNat_lt.mp short
        simp only [low, Nat.shiftLeft_eq, Nat.one_mul, Nat.reducePow]
        generalize value : a.toNat % 32 * 64 + b.toNat % 64 = v
        have same := val_ofNat (v := v) (.inl (by omega))
        rw [String.utf8EncodeChar.eq_1, same, if_neg (by omega), if_pos (by omega), byte (show _ = a.toNat by omega),
          byte (show _ = b.toNat by omega)]
        exact ⟨rfl, rfl⟩
      · cases found
    · split at found
      next b c tail =>
        split_ifs at found with shaped
        cases found
        simp only [Bool.and_eq_true, isTail_iff, second3_iff] at shaped
        simp only [low, Nat.shiftLeft_eq, Nat.one_mul, Nat.reducePow]
        generalize value : a.toNat % 16 * 4096 + b.toNat % 64 * 64 + c.toNat % 64 = v
        have same := val_ofNat (v := v) (by show v < 0xD800 ∨ 0xDFFF < v ∧ v < 0x110000; omega)
        rw [String.utf8EncodeChar.eq_1, same, if_neg (by omega), if_neg (by omega), if_pos (by omega),
          byte (show _ = a.toNat by omega), byte (show _ = b.toNat by omega), byte (show _ = c.toNat by omega)]
        exact ⟨rfl, rfl⟩
      · cases found
    · split at found
      next b c d tail =>
        split_ifs at found with shaped
        cases found
        simp only [Bool.and_eq_true, isTail_iff, second4_iff] at shaped
        simp only [low, Nat.shiftLeft_eq, Nat.one_mul, Nat.reducePow]
        generalize value : a.toNat % 8 * 262144 + b.toNat % 64 * 4096 + c.toNat % 64 * 64 + d.toNat % 64 = v
        have same := val_ofNat (v := v) (by show v < 0xD800 ∨ 0xDFFF < v ∧ v < 0x110000; omega)
        rw [String.utf8EncodeChar.eq_1, same, if_neg (by omega), if_neg (by omega), if_neg (by omega),
          byte (show _ = a.toNat by omega), byte (show _ = b.toNat by omega), byte (show _ = c.toNat by omega),
          byte (show _ = d.toNat by omega)]
        exact ⟨rfl, rfl⟩
      · cases found

/-- A character is one byte below 128, or some bytes that are not. -/
theorem encodeChar_cases (c : Char) : (∃ b, b < 0x80 ∧ c = Char.ofNat b.toNat ∧ String.utf8EncodeChar c = [b]) ∨
    ∀ b ∈ String.utf8EncodeChar c, 128 ≤ b.toNat := by
  by_cases high : 128 ≤ c.toNat
  · exact .inr (encodeChar_high high)
  · have small : c.toNat < 128 := Nat.not_le.mp high
    have byte : (UInt8.ofNat c.toNat).toNat = c.toNat := toNat_byte (Nat.lt_trans small (by decide))
    refine .inl ⟨UInt8.ofNat c.toNat, UInt8.lt_iff_toNat_lt.mpr ?_, ?_, ?_⟩
    · rw [byte]
      exact small
    · rw [byte, Char.ofNat_toNat]
    · rw [String.utf8EncodeChar.eq_1]
      exact if_pos (Nat.le_of_lt_succ small)

private theorem encodeChar_alone {b : UInt8} {tail : Bytes} (whole : String.utf8EncodeChar c = b :: tail)
    (ascii : b < 0x80) : tail = [] := by
  obtain ⟨d, _, _, single⟩ | high := encodeChar_cases c
  · exact (List.cons.inj (whole.symm.trans single)).2
  · rw [whole] at high
    exact absurd (UInt8.lt_iff_toNat_lt.mp ascii) (Nat.not_lt.mpr (high b List.mem_cons_self))

theorem encodeChar_ne_nil (c : Char) : String.utf8EncodeChar c ≠ [] :=
  List.length_pos_iff.mp (String.length_utf8EncodeChar c ▸ c.utf8Size_pos)

/-- Bytes at a broken place have no meaning of their own. -/
theorem broken_bytes {b : UInt8} (none : first? (b :: rest) = none) : ∃ front back, rest = front ++ back ∧
    front.length = brokenWidth (b :: rest) - 1 ∧ ∀ t ∈ b :: front, 128 ≤ t.toNat := by
  have lead : 128 ≤ b.toNat := by
    by_contra small
    have ascii : b < 0x80 := UInt8.lt_iff_toNat_lt.mpr (Nat.not_le.mp small)
    simp [first?, ascii] at none
  have single : ∀ t ∈ [b], 128 ≤ t.toNat := List.forall_mem_singleton.mpr lead
  have second {c : UInt8} (tail : second3 b c ∨ second4 b c) : 128 ≤ c.toNat := by
    rw [second3_iff, second4_iff] at tail
    omega
  unfold brokenWidth
  split
  next b c d back same =>
    obtain ⟨rfl, rfl⟩ := List.cons.inj same
    split_ifs with three two
    · simp only [Bool.and_eq_true, isTail_iff] at three
      exact ⟨[c, d], back, rfl, rfl, by simp [lead, second (.inr three.1), three.2.1]⟩
    · exact ⟨[c], d :: back, rfl, rfl, by simp [lead, second (by simpa using two)]⟩
    · exact ⟨[], _, rfl, rfl, single⟩
  next b c same =>
    obtain ⟨rfl, rfl⟩ := List.cons.inj same
    split_ifs with two
    · exact ⟨[c], [], rfl, rfl, by simp [lead, second (by simpa using two)]⟩
    · exact ⟨[], _, rfl, rfl, single⟩
  · exact ⟨[], _, rfl, rfl, single⟩

end Utf8

/-! ### Meaning -/

namespace Text

variable {bytes rest front meant : Bytes} {text : List Char}

private theorem decodes_behind (decodes : Decodes front meant) :
    Decodes (front ++ rest) bytes ↔ ∃ more, bytes = meant ++ more ∧ Decodes rest more := by
  rw [← unescapeFrom_iff 0, decodes.unescapes]
  cases read : unescapeFrom (0 + front.length) rest with
  | error offset =>
    refine ⟨nofun, fun ⟨more, _, later⟩ => ?_⟩
    cases read.symm.trans ((unescapeFrom_iff _).mpr later)
  | ok more =>
    have later := (unescapeFrom_iff _).mp read
    refine ⟨fun same => ⟨more, (Except.ok.inj same).symm, later⟩, fun ⟨others, same, later'⟩ => ?_⟩
    obtain rfl := Except.ok.inj (read.symm.trans ((unescapeFrom_iff _).mpr later'))
    rw [same]
    rfl

/-- What means the same in front does not change whether the rest means the same. -/
theorem decodes_alike {front' rest' : Bytes} (first : Decodes front meant) (second : Decodes front' meant)
    (later : ∀ more, Decodes rest more ↔ Decodes rest' more) : Decodes (front ++ rest) bytes ↔
    Decodes (front' ++ rest') bytes := by
  rw [decodes_behind first, decodes_behind second]
  exact exists_congr fun more => and_congr_right fun _ => later more

private theorem decodes_plain (plain : ∀ b ∈ front, b ≠ 0x5C) : Decodes front front := by
  induction front with
  | nil => exact .nil
  | cons b front ih =>
    obtain ⟨here, later⟩ := List.forall_mem_cons.mp plain
    exact .plain here (ih later)

private theorem decodes_sequence {sequence : Bytes} {value : UInt8} (known : Sequence sequence value) :
    Decodes sequence [value] := by
  have alone := Decodes.sequence known .nil
  rwa [List.append_nil] at alone

private theorem decodes_letter {b : UInt8} (other : b ≠ 0x78) : Decodes (0x5C :: b :: rest) bytes ↔
    ∃ value, Sequence [0x5C, b] value ∧ ∃ more, bytes = value :: more ∧ Decodes rest more := by
  constructor
  · generalize whole : 0x5C :: b :: rest = written
    intro decodes
    cases decodes with
    | nil => cases whole
    | plain other _ => exact absurd (List.cons.inj whole).1.symm other
    | sequence known later =>
      have short {a value : UInt8} {rest' more : Bytes} (known : Sequence [0x5C, a] value) (later : Decodes rest' more)
          (whole : 0x5C :: b :: rest = 0x5C :: a :: rest') :
          ∃ value', Sequence [0x5C, b] value' ∧ ∃ more', value :: more = value' :: more' ∧ Decodes rest more' := by
        obtain ⟨rfl, rfl⟩ : b = a ∧ rest = rest' := by simpa using whole
        exact ⟨value, known, more, rfl, later⟩
      cases known with
      | backslash => exact short .backslash later whole
      | quote => exact short .quote later whole
      | lineFeed => exact short .lineFeed later whole
      | tab => exact short .tab later whole
      | carriageReturn => exact short .carriageReturn later whole
      | digits | signed => exact absurd (List.cons.inj (List.cons.inj whole).2).1 other
  · rintro ⟨value, known, more, rfl, later⟩
    exact Decodes.sequence known later

private theorem decodes_hex : Decodes (0x5C :: 0x78 :: rest) bytes ↔ ∃ a b value, Sequence [0x5C, 0x78, a, b] value ∧
    ∃ tail more, rest = a :: b :: tail ∧ bytes = value :: more ∧ Decodes tail more := by
  constructor
  · generalize whole : 0x5C :: 0x78 :: rest = written
    intro decodes
    cases decodes with
    | nil => cases whole
    | plain other _ => exact absurd (List.cons.inj whole).1.symm other
    | sequence known later =>
      cases known with
      | digits first second =>
        obtain rfl : rest = _ := by simpa using whole
        exact ⟨_, _, _, .digits first second, _, _, rfl, rfl, later⟩
      | signed digit =>
        obtain rfl : rest = _ := by simpa using whole
        exact ⟨_, _, _, .signed digit, _, _, rfl, rfl, later⟩
      | _ => simp at whole
  · rintro ⟨a, b, value, known, tail, more, rfl, rfl, later⟩
    exact Decodes.sequence known later

private theorem hexPair_sequence (b : UInt8) : Sequence (Utf8.encode ('\\' :: 'x' :: hexPair b.toNat)) b := by
  have known : ∀ n < 16, (String.utf8EncodeChar (hexDigit n)).map hexValue? = [some (UInt8.ofNat n)] := by decide
  have digit {n : Nat} (small : n < 16) : ∃ d, String.utf8EncodeChar (hexDigit n) = [d] ∧ hexValue? d =
      some (UInt8.ofNat n) := by
    obtain ⟨d, none, same, value, last⟩ := List.map_eq_cons_iff.mp (known n small)
    rw [List.map_eq_nil_iff.mp last] at same
    exact ⟨d, same, value⟩
  have most := b.toNat_lt
  obtain ⟨high, first, one⟩ := digit (show b.toNat / 16 < 16 by omega)
  obtain ⟨low, second, two⟩ := digit (show b.toNat % 16 < 16 by omega)
  have written : Utf8.encode ('\\' :: 'x' :: hexPair b.toNat) = [0x5C, 0x78, high, low] := by
    simp only [Utf8.encode, hexPair, List.flatMap_cons, first, second]
    rfl
  have value : UInt8.ofNat (b.toNat / 16) * 16 + UInt8.ofNat (b.toNat % 16) = b := by
    rw [← UInt8.toNat_inj, UInt8.toNat_add, UInt8.toNat_mul, Utf8.toNat_byte (by omega), Utf8.toNat_byte (by omega),
      show (16 : UInt8).toNat = 16 from rfl]
    omega
  rw [written, ← value]
  exact .digits one two

/-- How bytes are written out as a text: a byte that belongs to no character by its digits. What
a backslash stands before is a character. -/
inductive Legible : Bytes → List Char → Prop
  | nil : Legible [] []
  | char {c : Char} {rest : Bytes} {text : List Char} : c ≠ '\\' → Legible rest text →
      Legible (String.utf8EncodeChar c ++ rest) (c :: text)
  | broken {b : UInt8} {rest : Bytes} {text : List Char} : 128 ≤ b.toNat → Legible rest text →
      Legible (b :: rest) ('\\' :: 'x' :: hexPair b.toNat ++ text)
  | escape {c : Char} {rest : Bytes} {text : List Char} : Legible rest text →
      Legible (0x5C :: (String.utf8EncodeChar c ++ rest)) ('\\' :: c :: text)

private theorem encodeChar_plain {c : Char} (plain : c ≠ '\\') : ∀ b ∈ String.utf8EncodeChar c, b ≠ 0x5C := by
  obtain ⟨d, _, same, single⟩ | high := Utf8.encodeChar_cases c
  · rw [single, List.forall_mem_singleton]
    rintro rfl
    exact plain same
  · rintro b member rfl
    exact absurd (high _ member) (by decide)

/-- The bytes and the text begin with the same byte, if it is none of those that are written out. -/
theorem Legible.head (legible : Legible bytes text) {a : UInt8} (ascii : a < 0x80) (plain : a ≠ 0x5C)
    (starts : bytes.head? = some a ∨ (Utf8.encode text).head? = some a) :
    ∃ rest others, bytes = a :: rest ∧ Utf8.encode text = a :: Utf8.encode others ∧ Legible rest others := by
  have small : a.toNat < 128 := UInt8.lt_iff_toNat_lt.mp ascii
  cases legible with
  | nil => rcases starts with none | none <;> cases none
  | @char c rest text _ later =>
    rw [Utf8.encode_char] at starts ⊢
    obtain ⟨b, _, _, single⟩ | high := Utf8.encodeChar_cases c
    · rw [single] at starts ⊢
      obtain rfl : b = a := by simpa using starts
      exact ⟨rest, text, rfl, rfl, later⟩
    · obtain ⟨b, tail, whole⟩ := List.exists_cons_of_ne_nil (Utf8.encodeChar_ne_nil c)
      rw [whole] at starts high
      obtain rfl : b = a := by simpa using starts
      exact absurd small (Nat.not_lt.mpr (high b (by simp)))
  | @broken b rest text high later =>
    rcases starts with first | first
    · obtain rfl : b = a := by simpa using first
      exact absurd small (Nat.not_lt.mpr high)
    · exact absurd (Option.some.inj first).symm plain
  | escape later => rcases starts with first | first <;> exact absurd (Option.some.inj first).symm plain

private theorem letter_ascii {b value : UInt8} (known : Sequence [0x5C, b] value) : b < 0x80 := by
  cases known <;> decide

private theorem pair_ascii {a b value : UInt8} (known : Sequence [0x5C, 0x78, a, b] value) :
    (a < 0x80 ∧ a ≠ 0x5C) ∧ b < 0x80 ∧ b ≠ 0x5C := by
  have digit {d v : UInt8} (found : hexValue? d = some v) : d < 0x80 ∧ d ≠ 0x5C := by
    refine ⟨?_, ?_⟩
    · rw [UInt8.lt_iff_toNat_lt]
      unfold hexValue? at found
      split_ifs at found with decimal upper lower
      all_goals
        simp only [Bool.and_eq_true, decide_eq_true_eq] at *
        refine Nat.lt_of_le_of_lt (UInt8.le_iff_toNat_le.mp (And.right ‹_›)) (by decide)
    · rintro rfl
      cases found
  cases known with
  | digits first second => exact ⟨digit first, digit second⟩
  | signed second => exact ⟨by decide, digit second⟩

theorem Legible.decodes (legible : Legible bytes text) (meant : Bytes) :
    Decodes bytes meant ↔ Decodes (Utf8.encode text) meant := by
  induction size : bytes.length using Nat.strong_induction_on generalizing bytes text meant with
  | _ n ih =>
    subst size
    cases legible with
    | nil => exact .rfl
    | @char c rest text plain later =>
      have some := List.length_pos_iff.mpr (Utf8.encodeChar_ne_nil c)
      have itself := decodes_plain (encodeChar_plain plain)
      rw [Utf8.encode_char]
      exact decodes_alike itself itself fun more => ih _ (by rw [List.length_append]; omega) later more rfl
    | @broken b rest text high later =>
      have itself : Decodes [b] [b] := decodes_plain fun t member => by
        rintro rfl
        rw [← List.mem_singleton.mp member] at high
        revert high
        decide
      have split : Utf8.encode ('\\' :: 'x' :: hexPair b.toNat ++ text) =
          Utf8.encode ('\\' :: 'x' :: hexPair b.toNat) ++ Utf8.encode text :=
        List.flatMap_append
      rw [split]
      exact decodes_alike itself (decodes_sequence (hexPair_sequence b)) fun more =>
        ih _ (Nat.lt_succ_self _) later more rfl
    | @escape c rest text later =>
      obtain ⟨b, tail, whole⟩ := List.exists_cons_of_ne_nil (Utf8.encodeChar_ne_nil c)
      have split : Utf8.encode ('\\' :: c :: text) = 0x5C :: (String.utf8EncodeChar c ++ Utf8.encode text) := by
        rw [Utf8.encode_char, Utf8.encode_char]
        rfl
      have alone (ascii : b < 0x80) : tail = [] := Utf8.encodeChar_alone whole ascii
      rw [split, whole, List.cons_append, List.cons_append]
      by_cases hex : b = 0x78
      · -- Digits are the same in both, and the rest is shorter.
        subst hex
        rw [alone (by decide), List.nil_append, List.nil_append, decodes_hex, decodes_hex]
        refine exists_congr fun x => exists_congr fun y => exists_congr fun value => and_congr_right fun known => ?_
        obtain ⟨⟨ascii, plain⟩, ascii', plain'⟩ := pair_ascii known
        have both (starts : (∃ tail, rest = x :: y :: tail) ∨ ∃ tail, Utf8.encode text = x :: y :: tail) :
            ∃ tail others, rest = x :: y :: tail ∧ Utf8.encode text = x :: y :: Utf8.encode others ∧
              Legible tail others := by
          obtain ⟨r, t, first, first', later'⟩ := later.head ascii plain
            (starts.imp (fun ⟨_, same⟩ => by rw [same]; rfl) fun ⟨_, same⟩ => by rw [same]; rfl)
          rw [first, first'] at starts
          obtain ⟨r', t', second, second', later''⟩ := later'.head ascii' plain'
            (starts.imp (fun ⟨_, same⟩ => by rw [(List.cons.inj same).2]; rfl) fun ⟨_, same⟩ =>
              by rw [(List.cons.inj same).2]; rfl)
          exact ⟨r', t', by rw [first, second], by rw [first', second'], later''⟩
        constructor
        · rintro ⟨tail, more, same, rfl, decodes⟩
          obtain ⟨tail', others, first, second, later'⟩ := both (.inl ⟨tail, same⟩)
          obtain rfl : tail = tail' := by simpa [same] using first
          exact ⟨_, more, second, rfl, (ih _ (by rw [same]; simp; omega) later' more rfl).mp decodes⟩
        · rintro ⟨tail, more, same, rfl, decodes⟩
          obtain ⟨tail', others, first, second, later'⟩ := both (.inr ⟨tail, same⟩)
          obtain rfl : tail = Utf8.encode others := by simpa [same] using second
          exact ⟨tail', more, first, rfl, (ih _ (by rw [first]; simp; omega) later' more rfl).mpr decodes⟩
      · rw [decodes_letter hex, decodes_letter hex]
        refine exists_congr fun value => and_congr_right fun known => exists_congr fun more =>
          and_congr_right fun _ => ?_
        rw [alone (letter_ascii known), List.nil_append, List.nil_append]
        exact ih _ (by simp [whole]; omega) later more rfl

theorem readableFrom_char (c : Char) (rest : Bytes) :
    readableFrom 0 false (String.utf8EncodeChar c ++ rest) = c :: readableFrom 0 false rest := by
  have read := Utf8.first?_encode c rest
  obtain ⟨b, tail, whole⟩ := List.exists_cons_of_ne_nil (Utf8.encodeChar_ne_nil c)
  rw [whole, List.cons_append] at read ⊢
  rw [readableFrom, read]
  exact congrArg (c :: ·) (readableFrom_append rest tail)

theorem readableFrom_broken (rest : Bytes) : ∀ front : Bytes, readableFrom front.length true (front ++ rest) =
    front.flatMap (fun b => '\\' :: 'x' :: hexPair b.toNat) ++ readableFrom 0 false rest
  | [] => by cases rest <;> rfl
  | b :: front => by
    rw [List.length_cons, List.cons_append, readableFrom, if_pos rfl, readableFrom_broken rest front, List.flatMap_cons,
      List.append_assoc]

private theorem Legible.brokenAll (legible : Legible rest text) (high : ∀ b ∈ bytes, 128 ≤ b.toNat) :
    Legible (bytes ++ rest) (bytes.flatMap (fun b => '\\' :: 'x' :: hexPair b.toNat) ++ text) := by
  induction bytes with
  | nil => exact legible
  | cons b bytes ih =>
    obtain ⟨here, later⟩ := List.forall_mem_cons.mp high
    rw [List.flatMap_cons, List.append_assoc]
    exact .broken here (ih later)

end Text

/-! ### What the lexer takes for a string -/

namespace Lexer

open Text (Legible readableFrom readableFrom_char)

variable {bytes rest : Bytes}

theorem stringFrom_skip (rest : Bytes) :
    ∀ tail : Bytes, stringFrom tail.length (tail ++ rest) = (stringFrom 0 rest).map (· + tail.length)
  | [] => by
    show stringFrom 0 rest = (stringFrom 0 rest).map _
    cases stringFrom 0 rest <;> rfl
  | _ :: tail => by
    rw [List.length_cons, List.cons_append, stringFrom, stringFrom_skip rest tail]
    cases stringFrom 0 rest <;> simp [Nat.add_assoc]

private theorem stringFrom_positive {length : Nat} (found : stringFrom 0 bytes = some length) : 0 < length := by
  obtain ⟨inner, taken⟩ := stringFrom_closed 0 bytes length found
  have some := congrArg List.length taken
  rw [List.length_take, List.length_append, List.length_singleton] at some
  omega

/-- A character behind a backslash is taken as a whole, and it is not the quote that closes the string. -/
theorem stringFrom_escape_split (closed : stringFrom 0 (0x5C :: (bytes ++ 0x22 :: rest)) = some (bytes.length + 2)) :
    ∃ c more, bytes = String.utf8EncodeChar c ++ more ∧
    stringFrom 0 (more ++ 0x22 :: rest) = some (more.length + 1) := by
  rw [stringFrom] at closed
  simp only [show ((0x5C : UInt8) == 0x22) = false from rfl, show ((0x5C : UInt8) == 0x0A) = false from rfl,
    Bool.false_eq_true, if_false, BEq.rfl, if_true] at closed
  cases read : Utf8.first? (bytes ++ 0x22 :: rest) with
  | none => simp [read] at closed
  | some found =>
    obtain ⟨c, width⟩ := found
    obtain ⟨split, length⟩ := Utf8.first?_bytes read
    simp only [read] at closed
    split at closed
    next => cases closed
    next =>
      obtain ⟨n, found, same⟩ := Option.map_eq_some_iff.mp closed
      obtain rfl : n = bytes.length + 1 := Nat.succ.inj same
      generalize (bytes ++ 0x22 :: rest).drop width = behind at split
      rw [split, ← length, stringFrom_skip] at found
      obtain ⟨left, later, whole⟩ := Option.map_eq_some_iff.mp found
      obtain ⟨beyond, char, same⟩ | ⟨more, rfl, rfl⟩ := List.append_eq_append_iff.mp split
      · cases beyond with
        | nil =>
          rw [List.append_nil] at char
          rw [List.nil_append] at same
          refine ⟨c, [], by rw [char, List.append_nil], ?_⟩
          rw [List.nil_append, same, later, Option.some.injEq]
          rw [char] at whole
          exact Nat.add_right_cancel (whole.trans (Nat.add_comm _ 1))
        | cons q beyond =>
          -- The character would be the quote itself, and nothing would be left of the string.
          obtain ⟨rfl, rfl⟩ := List.cons.inj same
          obtain ⟨d, _, _, single⟩ | high := Utf8.encodeChar_cases c
          · have size := congrArg List.length single
            have positive := stringFrom_positive later
            rw [char, List.length_append, List.length_cons, List.length_singleton] at size
            rw [char, List.length_append, List.length_cons] at whole
            omega
          · exact absurd (high 0x22 (by rw [char]; simp)) (by decide)
      · refine ⟨c, more, rfl, later.trans (congrArg some ?_)⟩
        rw [List.length_append] at whole
        omega

/-- What stands between quotes is written out as it is read. -/
theorem legible_of_string (closed : stringFrom 0 (bytes ++ 0x22 :: rest) = some (bytes.length + 1)) :
    Legible bytes (readableFrom 0 false bytes) := by
  have behind {front back : Bytes} (plain : ∀ b ∈ front, Text.means b = true)
      (closed : stringFrom 0 (front ++ back ++ 0x22 :: rest) = some ((front ++ back).length + 1)) :
      stringFrom 0 (back ++ 0x22 :: rest) = some (back.length + 1) := by
    rw [List.append_assoc, stringFrom_plain _ front plain] at closed
    obtain ⟨n, found, same⟩ := Option.map_eq_some_iff.mp closed
    rw [found, Option.some.injEq]
    rw [List.length_append] at same
    omega
  induction size : bytes.length using Nat.strong_induction_on generalizing bytes with
  | _ n ih =>
    subst size
    cases bytes with
    | nil => exact .nil
    | cons b tail =>
      by_cases backslash : b = 0x5C
      · subst backslash
        obtain ⟨c, more, rfl, closed'⟩ := stringFrom_escape_split closed
        have first : readableFrom 0 false (0x5C :: (String.utf8EncodeChar c ++ more)) = '\\' :: c ::
            readableFrom 0 false more := by
          rw [← readableFrom_char]
          rfl
        rw [first]
        exact .escape (ih _ (by rw [List.length_cons, List.length_append]; omega) closed' rfl)
      · have quote : b ≠ 0x22 := by
          rintro rfl
          simp [stringFrom] at closed
        have line : b ≠ 0x0A := by
          rintro rfl
          simp [stringFrom] at closed
        have here : Text.means b = true := by simp [Text.means, backslash, quote, line]
        cases read : Utf8.first? (b :: tail) with
        | some found =>
          obtain ⟨c, width⟩ := found
          obtain ⟨split, _⟩ := Utf8.first?_bytes read
          generalize (b :: tail).drop width = more at split
          have some := List.length_pos_iff.mpr (Utf8.encodeChar_ne_nil c)
          have plain : ∀ t ∈ String.utf8EncodeChar c, Text.means t = true := by
            obtain ⟨d, _, _, single⟩ | high := Utf8.encodeChar_cases c
            · rw [single] at split ⊢
              obtain ⟨rfl, -⟩ := List.cons.inj split
              exact List.forall_mem_singleton.mpr here
            · exact fun t member => Text.means_high (high t member)
          rw [split] at closed ih ⊢
          rw [readableFrom_char]
          refine .char ?_ (ih _ (by rw [List.length_append]; omega) (behind plain closed) rfl)
          rintro rfl
          exact backslash (List.cons.inj split).1
        | none =>
          obtain ⟨front, back, rfl, width, high⟩ := Utf8.broken_bytes read
          have first : readableFrom 0 false (b :: (front ++ back)) =
              (b :: front).flatMap (fun b => '\\' :: 'x' :: Text.hexPair b.toNat) ++ readableFrom 0 false back := by
            rw [readableFrom, read]
            dsimp only
            rw [← width, Text.readableFrom_broken, List.flatMap_cons, List.append_assoc]
          rw [first]
          have itself : ∀ t ∈ b :: front, Text.means t = true := fun t member => Text.means_high (high t member)
          have later := ih back.length (by rw [List.length_cons, List.length_append]; omega) (behind itself closed) rfl
          exact later.brokenAll high

private theorem string_of_lexeme {mode : Mode} {length : Nat}
    (found : lexeme? mode bytes = some (.token .string, length)) : string? bytes = some length := by
  cases mode with
  | normal => simpa [classes, eq_comm] using class_of_lexeme found (by decide)
  | _ => simpa [candidates] using mem_of_longest found

/-- The bytes of a string are quotes around what is written, as the text of its token has it. -/
theorem string_span {file : Option String} {source : Bytes} {found : List Span}
    (done : spans file source = .ok found) {span : Span}
    (member : span ∈ found) (kind : span.token.kind = .string) :
    ∃ written, span.slice source = 0x22 :: written ++ [0x22] ∧ Legible written (readableFrom 0 false written) ∧
      span.token.literal = .ofWritten (Text.readable written) := by
  obtain ⟨_, _, sited⟩ := (spans_cover done).each span member
  obtain ⟨kind', location, _, made⟩ := sited.made
  obtain rfl : span.token.kind = kind' := makeToken_kind made
  obtain other | ⟨mode, lexed⟩ := sited.lexed
  · cases kind.symm.trans other
  rw [kind] at lexed made
  have string := string_of_lexeme lexed
  have slice : span.slice source = (source.drop span.start).take (span.stop - span.start) := rfl
  rw [slice] at made ⊢
  generalize source.drop span.start = bytes at string made ⊢
  generalize span.stop - span.start = length at string made ⊢
  unfold string? at string
  split at string
  next rest =>
    obtain ⟨n, closed, rfl⟩ := Option.map_eq_some_iff.mp string
    obtain ⟨written, taken⟩ := stringFrom_closed 0 rest n closed
    have whole : rest = written ++ 0x22 :: rest.drop n := by
      rw [← List.singleton_append, ← List.append_assoc, ← taken, List.take_append_drop]
    have size : n = written.length + 1 := by
      have same := congrArg List.length taken
      rw [List.length_take, Nat.min_eq_left (stringFrom_le 0 rest n closed), List.length_append] at same
      exact same
    have bytes : (0x22 :: rest).take (n + 1) = 0x22 :: written ++ [0x22] := congrArg (0x22 :: ·) taken
    rw [whole, size] at closed
    refine ⟨written, bytes, legible_of_string closed, ?_⟩
    rw [bytes] at made
    rw [← Except.ok.inj made]
    simp
  next => cases string

end Lexer

namespace Grammar

open Text (Decodes Sequence readableFrom)

private theorem checkEscapes_run {s : State} {h : Handle} {token : Token}
    (stored : s.source.tokens.get? h = some token) {text : String}
    (literal : token.literal = .ofWritten text) : checkEscapes h s = match Text.unescape text with
      | .ok _ => .ok ((), s)
      | .error _ => .error ⟨.invalidEscape (s.source.tokens.text h), token.location⟩ := by
  have held : (s.source.tokens.get? h).bind (·.literal.asText?) = some text := by
    rw [stored, Option.bind_some, literal]
    rfl
  have located : locationIn s.source.tokens h = token.location := by rw [locationIn, stored]
  unfold checkEscapes
  rw [bind_ok (show Grammar.tokens s = .ok (s.source.tokens, s) from rfl), held]
  dsimp only
  cases Text.unescape text with
  | ok bytes => rfl
  | error offset =>
    rw [← located]
    rfl

/-- The bytes between the quotes of a string mean what its token means, whether they are UTF-8 or not.
The string passes the check if every backslash of the bytes starts a sequence, and only then; each
sequence is then replaced by its byte, and every other byte stays what it is. -/
theorem raw_strings {file : Option String} {source : Bytes} {found : List Lexer.Span}
    (done : Lexer.spans file source = .ok found) :
    ∀ span ∈ found, span.token.kind = .string → ∃ written, span.slice source = 0x22 :: written ++ [0x22] ∧
      (∀ bytes, Decodes written bytes → span.token.literal.meaning = bytes) ∧
      ∀ (s : State) (h : Handle) (token : Token), s.source.tokens.get? h = some token →
      token.literal = span.token.literal →
        ((∃ bytes, Decodes written bytes) → checkEscapes h s = .ok ((), s)) ∧
        ((¬∃ bytes, Decodes written bytes) →
          checkEscapes h s = .error ⟨.invalidEscape (s.source.tokens.text h), token.location⟩) := by
  intro span member kind
  obtain ⟨written, slice, legible, literal⟩ := Lexer.string_span done member kind
  have text : Bytes.ofText (Text.readable written) = Utf8.encode (readableFrom 0 false written) := by
    rw [Bytes.ofText, Text.readable, String.toList_ofList]
  have means (bytes : Bytes) : Text.unescape (Text.readable written) = .ok bytes ↔ Decodes written bytes := by
    rw [(Text.unescape_iff _).1, text, legible.decodes]
  refine ⟨written, slice, fun bytes decodes => ?_, fun s h token stored same => ?_⟩
  · have read := (means bytes).mpr decodes
    simp only [literal, Literal.meaning, Literal.ofWritten, if_true, read]
  · have run := checkEscapes_run stored (same.trans literal)
    refine ⟨fun readable => ?_, fun none => ?_⟩
    · obtain ⟨bytes, decodes⟩ := readable
      rw [run, (means bytes).mpr decodes]
    · cases read : Text.unescape (Text.readable written) with
      | ok bytes => exact absurd ⟨bytes, (means bytes).mp read⟩ none
      | error offset => rw [run, read]

/-- A string of an escape sequence and a byte that belongs to no character. -/
def rawSource : Bytes := [0x22, 0x5C, 0x78, 0x34, 0x31, 0xFF, 0x22]

theorem raw_strings_broken : ∃ span, Lexer.spans none rawSource = .ok [span] ∧ span.token.kind = .string ∧
    span.token.literal.meaning = [0x41, 0xFF] := by
  let written : Bytes := [0x5C, 0x78, 0x34, 0x31, 0xFF]
  let token : Token :=
    { kind := .string, location := ⟨none, ⟨1, 1⟩, ⟨1, 7⟩⟩, literal := .ofWritten (Text.readable written) }
  have quote : Lexer.lexeme? .normal rawSource = some (.token .string, 7) := by
    rw [rawSource, Lexer.lexeme_quote]
    rfl
  have made : Lexer.step none { rest := rawSource } = .found token ⟨[], .normal, ⟨1, 8⟩, some .string⟩ := by
    rw [Lexer.step, Lexer.lexemeOutwards, quote]
    rfl
  have run : Lexer.spans none rawSource = .ok [⟨token, 0, 7⟩] := by
    rw [Lexer.spans, show rawSource.length = 6 + 1 from rfl, Lexer.spansFrom, made]
    rfl
  have digits : Sequence [0x5C, 0x78, 0x34, 0x31] 0x41 := @Sequence.digits 0x34 0x31 4 1 rfl rfl
  have decodes : Decodes written [0x41, 0xFF] := .sequence digits (.plain (by decide) .nil)
  obtain ⟨written', slice, means, _⟩ := raw_strings run _ List.mem_cons_self rfl
  obtain rfl : written = written' := List.append_inj_left' (List.cons.inj slice).2 rfl
  exact ⟨_, run, rfl, means _ decodes⟩

end Grammar

end YaraRules
