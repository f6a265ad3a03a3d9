import Mathlib.Data.List.Induction
import Mathlib.Data.Nat.Digits.Defs
import YaraRules.Proofs.JumpTokens

/-! Integers as they are written and the numbers they stand for. Four notations with their own base and
factor meet two kinds of values; a number is taken as it is or not at all. -/

namespace YaraRules.Lexer

/-- The digit that a byte stands for, in either case. -/
def digit (b : UInt8) : Nat :=
  if isDigit b then b.toNat - '0'.toNat
  else if b.toNat < 'a'.toNat then b.toNat - 'A'.toNat + 10
  else b.toNat - 'a'.toNat + 10

/-- The number that digits stand for in a base, the most significant one first. -/
def number (base : Nat) (digits : Bytes) : Nat := Nat.ofDigits base (digits.map digit).reverse

/-- A written integer and the number it stands for. A unit is there only where it is allowed. -/
inductive Writes (units : Bool) : Bytes → Nat → Prop
  | decimal {digits : Bytes} (some : digits ≠ [])
      (all : ∀ b ∈ digits, isDigit b = true) : Writes units digits (number 10 digits)
  | kilobytes {digits : Bytes} (allowed : units = true) (some : digits ≠ []) (all : ∀ b ∈ digits, isDigit b = true) :
      Writes units (digits ++ Bytes.ofText "KB") (number 10 digits * 2 ^ 10)
  | megabytes {digits : Bytes} (allowed : units = true) (some : digits ≠ []) (all : ∀ b ∈ digits, isDigit b = true) :
      Writes units (digits ++ Bytes.ofText "MB") (number 10 digits * 2 ^ 20)
  | hexadecimal {digits : Bytes} (some : digits ≠ []) (all : ∀ b ∈ digits, isHexDigit b = true) :
      Writes units (Bytes.ofText "0x" ++ digits) (number 16 digits)
  | octal {digits : Bytes} (some : digits ≠ []) (all : ∀ b ∈ digits, isOctalDigit b = true) :
      Writes units (Bytes.ofText "0o" ++ digits) (number 8 digits)

/-- The literal holds a natural: in a signed number if it fits one, else in an unsigned one. -/
def HoldsExactly (literal : Literal) (value : Nat) : Prop :=
  (value < 2 ^ 63 ∧ ∃ i : Int64, literal.value = .int i ∧ i.toInt = value) ∨
    (2 ^ 63 ≤ value ∧ ∃ u : UInt64, literal.value = .uint u ∧ u.toNat = value)

variable {units : Bool} {bytes digits rest : Bytes} {base value length : Nat} {literal : Literal}

/-! ### What is written -/

private theorem hex_of_digit {b : UInt8} (decimal : isDigit b = true) : isHexDigit b = true := by
  rw [isHexDigit, decimal]
  rfl

private theorem hex_of_octal {b : UInt8} (octal : isOctalDigit b = true) : isHexDigit b = true := by
  by_contra other
  rw [octal_digit (by simpa using other)] at octal
  cases octal

private theorem hexValue_digit {b : UInt8} (hexadecimal : isHexDigit b = true) :
    ((Text.hexValue? b).getD 0).toNat = digit b := by
  have known : ∀ n < 256, isHexDigit (UInt8.ofNat n) = true → ((Text.hexValue? (UInt8.ofNat n)).getD 0).toNat =
      digit (UInt8.ofNat n) := by
    decide +kernel
  have here := known b.toNat b.toNat_lt
  rw [UInt8.ofNat_toNat] at here
  exact here hexadecimal

private theorem digitsValue_number (all : ∀ b ∈ digits, isHexDigit b = true) :
    digitsValue base digits = number base digits := by
  unfold digitsValue number
  induction digits using List.reverseRecOn with
  | nil => rfl
  | append_singleton digits b ih =>
    obtain ⟨front, last⟩ := List.forall_mem_append.mp all
    rw [List.foldl_append, ih front, List.map_append, List.reverse_append, List.foldl_cons, List.foldl_nil,
      hexValue_digit (last b (by simp)), Nat.mul_comm, Nat.add_comm]
    rfl

/-- What a unit behind digits multiplies them with. -/
def unitOf : Bytes → Nat
  | 0x4B :: _ => 2 ^ 10
  | 0x4D :: _ => 2 ^ 20
  | _ => 1

private theorem kilobytes_stop : ∀ b ∈ (Bytes.ofText "KB").head?, isDigit b = false ∧ b ≠ 0x78 ∧ b ≠ 0x6F := by
  rintro b ⟨⟩
  decide

private theorem megabytes_stop : ∀ b ∈ (Bytes.ofText "MB").head?, isDigit b = false ∧ b ≠ 0x78 ∧ b ≠ 0x6F := by
  rintro b ⟨⟩
  decide

private theorem integerValue_decimal (some : digits ≠ []) (all : ∀ b ∈ digits, isDigit b = true)
    (stops : ∀ b ∈ rest.head?, isDigit b = false ∧ b ≠ 0x78 ∧ b ≠ 0x6F) : integerValue (digits ++ rest) =
      digitsValue 10 digits * unitOf rest := by
  have taken : (digits ++ rest).takeWhile isDigit = digits := by
    rw [List.takeWhile_append_of_pos all]
    cases rest with
    | nil => simp
    | cons b rest => simp [(stops b rfl).1]
  unfold integerValue
  split
  next after same => exact absurd rfl (stops _ (digits_marked all some rfl same)).2.1
  next after same => exact absurd rfl (stops _ (digits_marked all some rfl same)).2.2
  · dsimp only
    rw [taken, List.drop_left]
    unfold unitOf
    split <;> simp

/-- The code's value of a written integer is its number. -/
theorem Writes.integerValue (writes : Writes units bytes value) : integerValue bytes = value := by
  have decimal {digits : Bytes} (all : ∀ b ∈ digits, isDigit b = true) : digitsValue 10 digits = number 10 digits :=
    digitsValue_number fun b member => hex_of_digit (all b member)
  cases writes with
  | decimal some all => rw [integerValue_digits all, decimal all]
  | kilobytes _ some all =>
    rw [← decimal all]
    exact integerValue_decimal some all kilobytes_stop
  | megabytes _ some all =>
    rw [← decimal all]
    exact integerValue_decimal some all megabytes_stop
  | hexadecimal _ all => exact digitsValue_number all
  | octal _ all => exact digitsValue_number fun b member => hex_of_octal (all b member)

/-! ### What the lexer takes -/

theorem Writes.found (writes : Writes units bytes value) : integer? units bytes = some bytes.length := by
  have decimal {digits unit : Bytes} (some : digits ≠ []) (all : ∀ b ∈ digits, isDigit b = true)
      (stops : ∀ b ∈ unit.head?, isDigit b = false ∧ b ≠ 0x78 ∧ b ≠ 0x6F) :
      integer? units (digits ++ unit) = decimal? units (digits ++ unit) ∧ run1? isDigit (digits ++ unit) =
        Option.some digits.length := by
    refine ⟨?_, run1_append all some fun b first => (stops b first).1⟩
    rw [integer?, based_digits isHexDigit all some rfl fun b first => (stops b first).2.1,
      based_digits isOctalDigit all some rfl fun b first => (stops b first).2.2, Option.none_or, Option.none_or]
  have based {p : UInt8 → Bool} {digits : Bytes} (some : digits ≠ []) (all : ∀ b ∈ digits, p b = true) :
      run1? p digits = Option.some digits.length := by
    simpa using (run1_append all some (by simp) : run1? p (digits ++ []) = _)
  cases writes with
  | decimal some all =>
    obtain ⟨plain, run⟩ : integer? units (bytes ++ []) = _ ∧ run1? isDigit (bytes ++ []) = _ :=
      decimal some all (by simp)
    rw [List.append_nil] at plain run
    rw [plain, decimal?, run, Option.bind_eq_bind, Option.bind_some, List.drop_length]
    rfl
  | @kilobytes digits allowed some all =>
    obtain ⟨plain, run⟩ := @decimal digits (Bytes.ofText "KB") some all kilobytes_stop
    rw [plain, decimal?, run, Option.bind_eq_bind, Option.bind_some, List.drop_left, List.length_append, allowed]
    rfl
  | @megabytes digits allowed some all =>
    obtain ⟨plain, run⟩ := @decimal digits (Bytes.ofText "MB") some all megabytes_stop
    rw [plain, decimal?, run, Option.bind_eq_bind, Option.bind_some, List.drop_left, List.length_append, allowed]
    rfl
  | @hexadecimal digits some all =>
    show integer? units (0x30 :: 0x78 :: digits) = Option.some (0x30 :: 0x78 :: digits).length
    simp [integer?, based?, based some all]
  | @octal digits some all =>
    show integer? units (0x30 :: 0x6F :: digits) = Option.some (0x30 :: 0x6F :: digits).length
    simp [integer?, based?, based some all]

theorem writes_of_integer (found : integer? units bytes = some length) :
    ∃ value, Writes units (bytes.take length) value := by
  rcases Option.or_eq_some_iff.mp found with hexadecimal | ⟨-, found⟩
  · obtain ⟨digits, whole, some, all⟩ := based_all hexadecimal
    rw [whole]
    exact ⟨_, .hexadecimal some all⟩
  rcases Option.or_eq_some_iff.mp found with octal | ⟨-, decimal⟩
  · obtain ⟨digits, whole, some, all⟩ := based_all octal
    rw [whole]
    exact ⟨_, .octal some all⟩
  obtain ⟨n, run, ended⟩ := Option.bind_eq_some_iff.mp decimal
  obtain ⟨some, all⟩ := run1_all run
  split at ended
  next u rest behind =>
    have whole : bytes.take (n + 2) = bytes.take n ++ [u, 0x42] := by rw [List.take_add, behind]; rfl
    split_ifs at ended with unit <;> cases ended
    · simp only [Bool.and_eq_true, Bool.or_eq_true, beq_iff_eq] at unit
      rw [whole]
      obtain ⟨allowed, rfl | rfl⟩ := unit
      · exact ⟨_, .kilobytes allowed some all⟩
      · exact ⟨_, .megabytes allowed some all⟩
    · exact ⟨_, .decimal some all⟩
  · cases ended
    exact ⟨_, .decimal some all⟩

/-! ### Literals -/

/-- A written integer is made of ASCII characters. -/
theorem Writes.toText (writes : Writes units bytes value) : Bytes.ofText bytes.toText = bytes := by
  have plain : ∀ b ∈ bytes, b.toNat < 128 := by
    cases writes with
    | decimal some all => exact (Numeral.decimal some all).ascii
    | kilobytes _ some all =>
      have unit : (Bytes.ofText "KB").all (·.toNat < 128) = true := rfl
      exact List.forall_mem_append.mpr ⟨(Numeral.decimal some all).ascii, by simpa using unit⟩
    | megabytes _ some all =>
      have unit : (Bytes.ofText "MB").all (·.toNat < 128) = true := rfl
      exact List.forall_mem_append.mpr ⟨(Numeral.decimal some all).ascii, by simpa using unit⟩
    | hexadecimal some all => exact (Numeral.hexadecimal some all).ascii
    | octal some all => exact (Numeral.octal some all).ascii
  rw [← ofText_ascii plain, toText_ofText]

private theorem integerLiteral_none : integerLiteral? bytes = none ↔ 2 ^ 64 ≤ integerValue bytes := by
  show (if integerValue bytes < 2 ^ 64 then _ else none) = none ↔ _
  split <;> simp <;> omega

private theorem integerLiteral_holds (made : integerLiteral? bytes = some literal) :
    HoldsExactly literal (integerValue bytes) := by
  unfold integerLiteral? at made
  dsimp only at made
  split_ifs at made with small decimal signed signed
  all_goals cases made
  · exact .inl ⟨signed, _, rfl, Int64.toInt_ofNat_of_lt signed⟩
  · exact .inr ⟨Nat.not_lt.mp signed, _, rfl, UInt64.toNat_ofNat_of_lt' small⟩
  · exact .inl ⟨signed, _, rfl, Int64.toInt_ofNat_of_lt signed⟩
  · exact .inr ⟨Nat.not_lt.mp signed, _, rfl, UInt64.toNat_ofNat_of_lt' small⟩

/-- Integers are exact. What the lexers take for an integer is written in one of the four notations, and
they take all of whatever is. It has no literal if and only if its number needs more than 64 bits; else the literal
holds that very number, signed where it fits, and is written as it was. -/
theorem integers_exact (units : Bool) (bytes : Bytes) :
    (∀ length, integer? units bytes = some length → ∃ value, Writes units (bytes.take length) value) ∧
    ∀ value, Writes units bytes value → integer? units bytes = some bytes.length ∧
      (integerLiteral? bytes = none ↔ 2 ^ 64 ≤ value) ∧
      ∀ literal, integerLiteral? bytes = some literal → HoldsExactly literal value ∧
      Bytes.ofText literal.text = bytes := by
  refine ⟨fun length found => writes_of_integer found, fun value writes => ⟨writes.found, ?_, fun literal made => ?_⟩⟩
  · rw [integerLiteral_none, writes.integerValue]
  · rw [integerLiteral_text made, ← writes.integerValue]
    exact ⟨integerLiteral_holds made, writes.toText⟩

/-- A unit takes a number out of its 64 bits. Zeros in front do not, and take the sign bit for a bit of the number. -/
theorem integers_exact_limits :
    integerLiteral? (Bytes.ofText "18014398509481984KB") = none ∧
    ∃ literal, integerLiteral? (Bytes.ofText "0x008000000000000000") = some literal ∧ HoldsExactly literal (2 ^ 63) ∧
      Bytes.ofText literal.text = Bytes.ofText "0x008000000000000000" := by
  have kilobytes : Writes true (Bytes.ofText "18014398509481984KB") (2 ^ 64) :=
    @Writes.kilobytes true (Bytes.ofText "18014398509481984") rfl (by decide) (List.all_eq_true.mp rfl)
  have hexadecimal : Writes true (Bytes.ofText "0x008000000000000000") (2 ^ 63) :=
    @Writes.hexadecimal true (Bytes.ofText "008000000000000000") (by decide) (List.all_eq_true.mp rfl)
  obtain ⟨_, none, _⟩ := (integers_exact true _).2 _ kilobytes
  obtain ⟨_, small, exact⟩ := (integers_exact true _).2 _ hexadecimal
  obtain ⟨literal, made⟩ := Option.ne_none_iff_exists'.mp fun absent => absurd (small.mp absent) (by decide)
  exact ⟨none.mpr (Nat.le_refl _), literal, made, exact literal made⟩

end YaraRules.Lexer
