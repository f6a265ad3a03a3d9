import Mathlib.Data.List.TakeWhile
import YaraRules.Edit.Rule
import YaraRules.Proofs.LexerWords

/-! Literals that are written and read back: a text in quotes, a boolean, and a number in
decimal digits with or without a minus sign. -/

namespace YaraRules

namespace Lexer

variable {bytes rest : Bytes} {n : Nat}

/-! ### Decimal numbers -/

private theorem encode_digit {c : Char} (digit : c.isDigit = true) : ∃ b, String.utf8EncodeChar c = [b] ∧
    isDigit b = true ∧ ((Text.hexValue? b).getD 0).toNat = c.toNat - '0'.toNat := by
  have known : ∀ n < 0x3A, 0x30 ≤ n → String.utf8EncodeChar (Char.ofNat n) = [UInt8.ofNat n] ∧
    isDigit (UInt8.ofNat n) = true ∧
      ((Text.hexValue? (UInt8.ofNat n)).getD 0).toNat = n - 0x30 := by decide +kernel
  obtain ⟨low, high⟩ : 0x30 ≤ c.toNat ∧ c.toNat < 0x3A := by
    simp only [Char.isDigit, Bool.and_eq_true, decide_eq_true_eq, ge_iff_le, UInt32.le_iff_toNat_le] at digit
    exact ⟨digit.1, Nat.lt_succ_of_le digit.2⟩
  have here := known c.toNat high low
  rw [Char.ofNat_toNat] at here
  exact ⟨_, here⟩

private theorem digits_encode (text : List Char) (digits : ∀ c ∈ text, c.isDigit = true) (value : Nat) :
    (∀ b ∈ Utf8.encode text, isDigit b = true) ∧ (Utf8.encode text).foldl
    (fun value b => value * 10 + ((Text.hexValue? b).getD 0).toNat) value = Nat.ofDigitChars 10 text value := by
  induction text generalizing value with
  | nil => exact ⟨nofun, rfl⟩
  | cons c text ih =>
    obtain ⟨here, later⟩ := List.forall_mem_cons.mp digits
    obtain ⟨b, bytes, digit, same⟩ := encode_digit here
    have split : Utf8.encode (c :: text) = b :: Utf8.encode text := by
      rw [Utf8.encode, List.flatMap_cons, bytes]
      rfl
    rw [split]
    refine ⟨List.forall_mem_cons.mpr ⟨digit, (ih later 0).1⟩, ?_⟩
    rw [List.foldl_cons, same, (ih later _).2, Nat.ofDigitChars, Nat.ofDigitChars, List.foldl_cons, Nat.mul_comm]

/-- A number is the value of its decimal digits. -/
theorem digits_decimal (n : Nat) : (∀ b ∈ Bytes.ofText (toString n), isDigit b = true) ∧
    Bytes.ofText (toString n) ≠ [] ∧ digitsValue 10 (Bytes.ofText (toString n)) = n := by
  have text : (toString n).toList = Nat.toDigits 10 n := by
    rw [Nat.toString_eq_repr, Nat.repr_eq_ofList_toDigits, String.toList_ofList]
  obtain ⟨digits, value⟩ :=
    digits_encode (Nat.toDigits 10 n) (fun c member => Nat.isDigit_of_mem_toDigits (by decide) (by decide) member) 0
  rw [Bytes.ofText, text]
  refine ⟨digits, fun none => ?_, value.trans (Nat.ofDigitChars_toDigits (by decide) (by decide))⟩
  have back := Utf8.decode_encode (Nat.toDigits 10 n)
  rw [none] at back
  exact Nat.toDigits_ne_nil back.symm

theorem integerValue_digits (digits : ∀ b ∈ bytes, isDigit b = true) : integerValue bytes = digitsValue 10 bytes := by
  have all : bytes.takeWhile isDigit = bytes := List.takeWhile_eq_self_iff.mpr digits
  unfold integerValue
  split
  · exact absurd (digits 0x78 (by simp)) (by decide)
  · exact absurd (digits 0x6F (by simp)) (by decide)
  · dsimp only
    rw [all, List.drop_length]

theorem integerLiteral_decimal (small : n < UInt64.size) : integerLiteral? (Bytes.ofText (toString n)) =
    some (if n < Literal.signedLimit then Literal.ofInt (Int64.ofNat n) else Literal.ofUInt (UInt64.ofNat n)) := by
  obtain ⟨digits, _, value⟩ := digits_decimal n
  simp only [integerLiteral?, integerValue_digits digits, value, small, if_true, toText_ofText, beq_self_eq_true]

end Lexer

/-! ### Literals that agree -/

namespace Literal

def number? (l : Literal) : Option Int :=
  match l.value with
  | .int i => some i.toInt
  | .uint u => some u.toNat
  | _ => none

/-- Literals of one kind that stand for the same bytes and the same number. -/
structure Agrees (read written : Literal) : Prop where
  kind : RuleEdit.metaValueKind read = RuleEdit.metaValueKind written
  meaning : read.meaning = written.meaning
  number : read.number? = written.number?

theorem Agrees.refl (l : Literal) : l.Agrees l := ⟨rfl, rfl, rfl⟩

/-- A text, a boolean or a number. The smallest signed number is left out, and so are floats. -/
inductive Storable : Literal → Prop
  | text (s : String) : Storable (.ofText s)
  | bool (b : Bool) : Storable (.ofBool b)
  | int {i : Int64} (more : i ≠ Int64.minValue) : Storable (.ofInt i)
  | uint (u : UInt64) : Storable (.ofUInt u)

theorem agrees_text (s : String) : (ofWritten (Text.escape s)).Agrees (ofText s) := by
  refine ⟨rfl, ?_, rfl⟩
  simp only [meaning, ofWritten, ofText, if_true, Text.unescape_escape, Bool.false_eq_true, if_false]

theorem agrees_uint (u : UInt64) :
    (if u.toNat < signedLimit then ofInt (Int64.ofNat u.toNat) else ofUInt (UInt64.ofNat u.toNat)).Agrees
    (ofUInt u) := by
  split_ifs with signed
  · have same : (Int64.ofNat u.toNat).toInt = u.toNat := Int64.toInt_ofNat_of_lt signed
    refine ⟨rfl, ?_, congrArg some same⟩
    show Bytes.ofText (toString (Int64.ofNat u.toNat).toInt) = Bytes.ofText (toString u.toNat)
    rw [same]
    rfl
  · rw [UInt64.ofNat_toNat]
    exact .refl _

/-- A number that is not negative is written in digits. -/
theorem int_digits {i : Int64} (positive : 0 ≤ i.toInt) :
    (ofInt i).text = toString i.toInt.toNat ∧ i.toInt.toNat < signedLimit ∧ Int64.ofNat i.toInt.toNat = i := by
  have small : i.toInt.toNat < signedLimit := by
    have most := i.toInt_lt
    show i.toInt.toNat < 2 ^ 63
    omega
  refine ⟨?_, small, Int64.toInt_inj.mp ?_⟩
  · show i.toInt.repr = _
    rw [Int.repr_eq_if, if_pos positive, Nat.toString_eq_repr]
  · rw [Int64.toInt_ofNat_of_lt small, Int.toNat_of_nonneg positive]

/-- A negative number is written with a sign and is read back from the digits behind it. -/
theorem int_negated {i : Int64} (negative : i.toInt < 0) (more : i ≠ Int64.minValue) :
    (ofInt i).text = "-" ++ toString (-i.toInt).toNat ∧ (-i.toInt).toNat < signedLimit ∧
      Grammar.negated? (ofInt (Int64.ofNat (-i.toInt).toNat)) = some (ofInt i) := by
  have small : (-i.toInt).toNat < signedLimit := by
    have least := i.le_toInt
    have other : i.toInt ≠ -2 ^ 63 := fun same => more (Int64.toInt_inj.mp same)
    show (-i.toInt).toNat < 2 ^ 63
    omega
  refine ⟨?_, small, ?_⟩
  · show i.toInt.repr = _
    rw [Int.repr_eq_if, if_neg (by omega), Nat.toString_eq_repr]
  · have back : -Int64.ofNat (-i.toInt).toNat = i := by
      refine Int64.toInt_inj.mp ?_
      rw [Int64.toInt_neg, Int64.toInt_ofNat_of_lt small, Int.toNat_of_nonneg (by omega), Int.neg_neg]
      have least := i.le_toInt
      exact Int.bmod_eq_of_le (by omega) (by omega)
    show some (ofInt (-Int64.ofNat (-i.toInt).toNat)) = _
    rw [back]

end Literal

end YaraRules
