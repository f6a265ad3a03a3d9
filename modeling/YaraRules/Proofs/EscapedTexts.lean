import YaraRules.Proofs.LexerTexts

/-! Texts between quotes. A text that was escaped is read back to the byte, and what is
written for it neither ends the string nor the line. -/

namespace YaraRules

namespace Utf8

/-- A character that a byte below 128 does not stand for has no such byte. -/
theorem encodeChar_high {c : Char} (high : 128 ≤ c.toNat) : ∀ b ∈ String.utf8EncodeChar c, 128 ≤ b.toNat := by
  have large : 128 ≤ c.val.toNat := high
  rw [String.utf8EncodeChar.eq_1]
  generalize c.val.toNat = v at large
  have byte {n : Nat} (least : 128 ≤ n) (small : n < 256) : 128 ≤ (UInt8.ofNat n).toNat := by rwa [toNat_byte small]
  have tail (n : Nat) : 128 ≤ (UInt8.ofNat (n % 64 + 128)).toNat := byte (by omega) (by omega)
  split_ifs with one two three
  · omega
  · simp only [List.forall_mem_cons]
    exact ⟨byte (by omega) (by omega), tail _, nofun⟩
  · simp only [List.forall_mem_cons]
    exact ⟨byte (by omega) (by omega), tail _, tail _, nofun⟩
  · simp only [List.forall_mem_cons]
    exact ⟨byte (by omega) (by omega), tail _, tail _, tail _, nofun⟩

end Utf8

namespace Text

/-- A byte that means itself between quotes. -/
def means (b : UInt8) : Bool := b != 0x5C && b != 0x22 && b != 0x0A

theorem means_high {b : UInt8} (high : 128 ≤ b.toNat) : means b = true := by
  have other {d : UInt8} (small : d.toNat < 128) : b ≠ d := by
    rintro rfl
    omega
  simp [means, other (by decide : (0x5C : UInt8).toNat < 128), other (by decide : (0x22 : UInt8).toNat < 128),
    other (by decide : (0x0A : UInt8).toNat < 128)]

/-- What is written between quotes for some bytes: a sequence for one of them, or the bytes themselves. -/
inductive Escaped : Bytes → Bytes → Prop
  | letter {b v : UInt8} (value : letterValue? b = some v) : Escaped [0x5C, b] [v]
  | pair {a b v : UInt8} (value : hexPairValue? a b = some v) (first : means a = true) (second : means b = true) :
      Escaped [0x5C, 0x78, a, b] [v]
  | itself {bytes : Bytes} (plain : ∀ b ∈ bytes, means b = true) : Escaped bytes bytes

/-- What is written for a byte below 128, as `Escaped` tells it. -/
def escapesTo (v : UInt8) : Bytes → Bool
  | [mark, x, a, b] => mark == 0x5C && x == 0x78 && hexPairValue? a b == some v && means a && means b
  | [mark, b] => mark == 0x5C && letterValue? b == some v
  | [b] => b == v && means b
  | _ => false

private theorem escaped_of_ascii {v : UInt8} {bytes : Bytes} (holds : escapesTo v bytes = true) :
    Escaped bytes [v] := by
  unfold escapesTo at holds
  split at holds
  · simp only [Bool.and_eq_true, beq_iff_eq] at holds
    obtain ⟨⟨⟨⟨rfl, rfl⟩, value⟩, first⟩, second⟩ := holds
    exact .pair value first second
  · simp only [Bool.and_eq_true, beq_iff_eq] at holds
    obtain ⟨rfl, value⟩ := holds
    exact .letter value
  · simp only [Bool.and_eq_true, beq_iff_eq] at holds
    obtain ⟨rfl, plain⟩ := holds
    exact .itself (by simpa using plain)
  · cases holds

private theorem ascii_escapes : ∀ n < 128, escapesTo (UInt8.ofNat n) (Utf8.encode (escapeChar (Char.ofNat n))) = true ∧
    String.utf8EncodeChar (Char.ofNat n) = [UInt8.ofNat n] := by
  decide +kernel

private theorem escapeChar_high {c : Char} (high : 128 ≤ c.toNat) : escapeChar c = [c] := by
  have other {d : Char} (small : d.toNat < 128) : (c == d) = false := by
    refine beq_eq_false_iff_ne.mpr ?_
    rintro rfl
    omega
  have control : (c.toNat < 0x20 || c.toNat == 0x7F) = false := by simp; omega
  simp [escapeChar, other (by decide : '\\'.toNat < 128), other (by decide : '"'.toNat < 128), other
    (by decide : '\n'.toNat < 128), other (by decide : '\t'.toNat < 128), other (by decide : '\r'.toNat < 128), control]

private theorem escapeChar_escaped (c : Char) : Escaped (Utf8.encode (escapeChar c)) (String.utf8EncodeChar c) := by
  by_cases ascii : c.toNat < 128
  · obtain ⟨holds, bytes⟩ := ascii_escapes c.toNat ascii
    rw [Char.ofNat_toNat] at holds bytes
    rw [bytes]
    exact escaped_of_ascii holds
  · have high : 128 ≤ c.toNat := Nat.le_of_not_lt ascii
    have whole : Utf8.encode [c] = String.utf8EncodeChar c := by simp [Utf8.encode]
    rw [escapeChar_high high, whole]
    exact .itself fun b member => means_high (Utf8.encodeChar_high high b member)

/-! ### Meaning -/

theorem unescapeFrom_plain (rest : Bytes) : ∀ (bytes : Bytes) (offset : Nat), (∀ b ∈ bytes, means b = true) →
    unescapeFrom offset (bytes ++ rest) = (unescapeFrom (offset + bytes.length) rest).map (bytes ++ ·)
  | [], offset, _ => by
    show unescapeFrom offset rest = (unescapeFrom offset rest).map _
    cases unescapeFrom offset rest <;> rfl
  | b :: bytes, offset, plain => by
    obtain ⟨here, plain⟩ := List.forall_mem_cons.mp plain
    have other : b ≠ 0x5C := by
      rintro rfl
      cases here
    have later := unescapeFrom_plain rest bytes (offset + 1) plain
    have length : offset + 1 + bytes.length = offset + (b :: bytes).length := by simp; omega
    rw [List.cons_append, unescapeFrom.eq_4 _ _ _ (by simp [other]) (by simp [other]), later, length]
    cases unescapeFrom (offset + (b :: bytes).length) rest
      <;> simp [other, bind, Except.bind, pure, Except.pure, Except.map]

theorem Escaped.unescapes {written bytes : Bytes} (escaped : Escaped written bytes) (rest : Bytes) (offset : Nat) :
    unescapeFrom offset (written ++ rest) = (unescapeFrom (offset + written.length) rest).map (bytes ++ ·) := by
  cases escaped with
  | letter value =>
    rename_i b v
    have other : b ≠ 0x78 := by
      rintro rfl
      cases value
    rw [List.cons_append, List.cons_append, List.nil_append, unescapeFrom.eq_3 _ _ _ (by simp [other]), value]
    cases unescapeFrom (offset + 2) rest <;> rfl
  | pair value first second =>
    simp only [List.cons_append, List.nil_append]
    rw [unescapeFrom, value]
    cases unescapeFrom (offset + 4) rest <;> rfl
  | itself plain => exact unescapeFrom_plain rest _ offset plain

private theorem unescapeFrom_escape : ∀ (text : List Char) (offset : Nat),
    unescapeFrom offset (Utf8.encode (text.flatMap escapeChar)) = .ok (Utf8.encode text)
  | [], _ => rfl
  | c :: text, offset => by
    have split : Utf8.encode ((c :: text).flatMap escapeChar) = Utf8.encode (escapeChar c) ++
        Utf8.encode (text.flatMap escapeChar) := by
      simp [Utf8.encode]
    rw [split, (escapeChar_escaped c).unescapes, unescapeFrom_escape text]
    simp [Except.map, Utf8.encode]

/-- What is written for a character has no line break. -/
theorem escapeChar_line (c : Char) : ∀ d ∈ escapeChar c, d ≠ '\n' ∧ d ≠ '\r' := by
  by_cases ascii : c.toNat < 128
  · have small : ∀ n < 128, (escapeChar (Char.ofNat n)).all fun d => d != '\n' && d != '\r' := by decide +kernel
    have here := small c.toNat ascii
    rw [Char.ofNat_toNat, List.all_eq_true] at here
    simpa using here
  · rw [escapeChar_high (Nat.le_of_not_lt ascii)]
    simp only [List.mem_singleton, forall_eq]
    refine ⟨?_, ?_⟩ <;>
      · rintro rfl
        exact ascii (by decide)

theorem unescape_escape (text : String) : unescape (escape text) = .ok (Bytes.ofText text) := by
  have whole : Bytes.ofText (escape text) = Utf8.encode (text.toList.flatMap escapeChar) := by
    rw [escape, Bytes.ofText, String.toList_ofList]
  rw [unescape, whole, unescapeFrom_escape]
  rfl

end Text

namespace Lexer

open Text (means Escaped)

/-! ### Ends of strings -/

theorem stringFrom_plain (rest : Bytes) : ∀ bytes : Bytes, (∀ b ∈ bytes, means b = true) →
    stringFrom 0 (bytes ++ rest) = (stringFrom 0 rest).map (· + bytes.length)
  | [], _ => by
    show stringFrom 0 rest = (stringFrom 0 rest).map _
    cases stringFrom 0 rest <;> rfl
  | b :: bytes, plain => by
    obtain ⟨here, plain⟩ := List.forall_mem_cons.mp plain
    have other : (b == 0x22) = false ∧ (b == 0x0A) = false ∧ (b == 0x5C) = false := by
      simp only [means, Bool.and_eq_true, bne_iff_ne, ne_eq] at here
      simp [here]
    have later := stringFrom_plain rest bytes plain
    rw [List.cons_append, stringFrom]
    simp only [other, Bool.false_eq_true, if_false]
    rw [later]
    cases stringFrom 0 rest <;> simp [Nat.add_assoc]

private theorem stringFrom_escaped {written bytes : Bytes} (escaped : Escaped written bytes) (rest : Bytes) :
    stringFrom 0 (written ++ rest) = (stringFrom 0 rest).map (· + written.length) := by
  have sequence {b : UInt8} (ascii : b < 0x80) (word : Char.ofNat b.toNat ≠ '\n') (after : Bytes) :
      stringFrom 0 (0x5C :: b :: after) = (stringFrom 0 after).map (· + 2) := by
    have read : Utf8.first? (b :: after) = some (Char.ofNat b.toNat, 1) := by simp [Utf8.first?, ascii]
    rw [stringFrom, read]
    simp only [show ((0x5C : UInt8) == 0x22) = false from rfl, show ((0x5C : UInt8) == 0x0A) = false from rfl,
      Bool.false_eq_true, if_false, beq_self_eq_true, if_true, beq_iff_eq, word, stringFrom]
    cases stringFrom 0 after <;> rfl
  cases escaped with
  | letter value =>
    rename_i b v
    have known : b < 0x80 ∧ Char.ofNat b.toNat ≠ '\n' := by
      unfold Text.letterValue? at value
      split_ifs at value with one two three four five
      all_goals
        rw [beq_iff_eq] at *
        subst b
        decide
    exact sequence known.1 known.2 rest
  | pair value first second =>
    rename_i a b v
    have plain := stringFrom_plain rest [a, b] (by simp [first, second])
    rw [List.cons_append, List.cons_append, sequence (by decide) (by decide), plain]
    cases stringFrom 0 rest <;> simp
  | itself plain => exact stringFrom_plain rest _ plain

private theorem stringFrom_escape (rest : Bytes) : ∀ text : List Char,
    stringFrom 0 (Utf8.encode (text.flatMap Text.escapeChar) ++ rest) =
      (stringFrom 0 rest).map (· + (Utf8.encode (text.flatMap Text.escapeChar)).length)
  | [] => by
    show stringFrom 0 rest = (stringFrom 0 rest).map _
    cases stringFrom 0 rest <;> rfl
  | c :: text => by
    have split : Utf8.encode ((c :: text).flatMap Text.escapeChar) =
        Utf8.encode (Text.escapeChar c) ++ Utf8.encode (text.flatMap Text.escapeChar) := by
      simp [Utf8.encode]
    rw [split, List.append_assoc, stringFrom_escaped (Text.escapeChar_escaped c), stringFrom_escape rest text]
    cases stringFrom 0 rest <;> simp; omega

/-- A text in quotes is one string, whatever follows it. -/
theorem string_escape (text : String) (rest : Bytes) :
    string? (Bytes.ofText ("\"" ++ Text.escape text ++ "\"") ++ rest) =
    some (Bytes.ofText ("\"" ++ Text.escape text ++ "\"")).length := by
  have whole : Bytes.ofText ("\"" ++ Text.escape text ++ "\"") = 0x22 ::
      (Utf8.encode (text.toList.flatMap Text.escapeChar) ++ [0x22]) := by
    simp only [Bytes.ofText, Text.escape, String.toList_append, String.toList_ofList]
    simp [Utf8.encode, String.utf8EncodeChar]
  have closed : stringFrom 0 (0x22 :: rest) = some 1 := by simp [stringFrom]
  rw [whole, List.cons_append, List.append_assoc, string?, List.singleton_append, stringFrom_escape, closed]
  simp; omega

end Lexer

end YaraRules
