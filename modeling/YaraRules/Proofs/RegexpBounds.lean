import Mathlib.Data.List.Infix
import Mathlib.Data.List.TakeWhile
import Mathlib.Tactic.Common
import YaraRules.Regexp.Reader

/-! Bounds of repetitions. The tree keeps a bound as a number, so the zeros in front of its
digits are lost; the number is written with other digits, that are read as the same number. -/

namespace YaraRules

namespace Regexp

/-- The second text is the first without some of the zeros that stand before a digit, after a
brace or a comma. -/
inductive Unpadded : List Char → List Char → Prop
  | nil : Unpadded [] []
  | keep (c : Char) {text left : List Char} : Unpadded text left → Unpadded (c :: text) (c :: left)
  | drop {c d : Char} {text left : List Char} : c = '\x7b' ∨ c = ',' → d.isDigit = true →
      Unpadded (c :: d :: text) left → Unpadded (c :: '0' :: d :: text) left

/-- A zero stands before a digit, after a brace or a comma. -/
def Padded (text : List Char) : Prop :=
  ∃ before c d after, text = before ++ c :: '0' :: d :: after ∧ (c = '\x7b' ∨ c = ',') ∧ d.isDigit = true

variable {text left : List Char}

namespace Unpadded

theorem append (front : List Char) (rest : Unpadded text left) : Unpadded (front ++ text) (front ++ left) := by
  induction front with
  | nil => exact rest
  | cons c front ih => exact ih.keep c

theorem append_right (back : List Char) (front : Unpadded text left) : Unpadded (text ++ back) (left ++ back) := by
  induction front with
  | nil => simpa using nil.append back
  | keep c _ ih => exact ih.keep c
  | drop lead digit _ ih => exact ih.drop lead digit

theorem head (unpadded : Unpadded text left) : left.head? = text.head? := by
  induction unpadded with
  | nil => rfl
  | keep c _ _ => rfl
  | drop _ _ _ ih => exact ih

theorem eq_of_not_padded (unpadded : Unpadded text left) (bare : ¬Padded text) : left = text := by
  induction unpadded with
  | nil => rfl
  | keep c _ ih =>
    rw [ih]
    rintro ⟨before, found⟩
    obtain ⟨d, e, after, rfl, found⟩ := found
    exact bare ⟨c :: before, d, e, after, rfl, found⟩
  | drop lead digit _ _ => exact absurd ⟨[], _, _, _, rfl, lead, digit⟩ bare

end Unpadded

/-! ### Numbers of repetitions -/

private theorem digitChar_digit {c : Char} (digit : c.isDigit = true) :
    (c.toNat - 48).digitChar = c ∧ c.toNat - 48 < 10 := by
  have known : ∀ n < 58, 48 ≤ n → (n - 48).digitChar = Char.ofNat n := by decide
  obtain ⟨low, high⟩ : 48 ≤ c.toNat ∧ c.toNat < 58 := by
    simp only [Char.isDigit, Bool.and_eq_true, decide_eq_true_eq, ge_iff_le, UInt32.le_iff_toNat_le] at digit
    obtain ⟨low, high⟩ := digit
    exact ⟨low, Nat.lt_succ_of_le high⟩
  refine ⟨?_, by omega⟩
  rw [known _ high low, Char.ofNat_toNat]

/-- Digits behind a number that is not zero are the last digits of the number they make. -/
theorem toDigits_foldl (digits : List Char) (all : ∀ c ∈ digits, c.isDigit = true) {start : Nat}
    (positive : 0 < start) : Nat.toDigits 10 (digits.foldl (fun value c => value * 10 + (c.toNat - 48)) start) =
    Nat.toDigits 10 start ++ digits := by
  induction digits generalizing start with
  | nil => rw [List.foldl_nil, List.append_nil]
  | cons c digits ih =>
    obtain ⟨digit, later⟩ := List.forall_mem_cons.mp all
    obtain ⟨same, small⟩ := digitChar_digit digit
    rw [List.foldl_cons, ih later (by omega), Nat.mul_comm start,
      ← Nat.toDigits_append_toDigits (by decide) positive small, Nat.toDigits_of_lt_base small, same, List.append_assoc]
    rfl

private theorem unpadded_bound {c : Char} (lead : c = '\x7b' ∨ c = ',') {digits : List Char} (some : digits ≠ [])
    (all : ∀ d ∈ digits, d.isDigit = true) (rest : Unpadded text left) :
    Unpadded (c :: (digits ++ text)) (c :: ((toString (decimalValue digits)).toList ++ left)) := by
  rw [Nat.toString_eq_repr, Nat.repr_eq_ofList_toDigits, String.toList_ofList]
  induction digits with
  | nil => exact absurd rfl some
  | cons d digits ih =>
    obtain ⟨digit, later⟩ := List.forall_mem_cons.mp all
    obtain ⟨same, small⟩ := digitChar_digit digit
    by_cases zero : d = '0'
    · subst zero
      cases digits with
      | nil => exact (rest.append ['0']).keep c
      | cons e digits =>
        have value : decimalValue ('0' :: e :: digits) = decimalValue (e :: digits) := rfl
        rw [value]
        exact .drop lead (List.forall_mem_cons.mp later).1 (ih (by simp) later)
    · have positive : 0 < d.toNat - 48 := by
        by_contra none
        rw [Nat.eq_zero_of_not_pos none] at same
        exact zero same.symm
      have value : decimalValue (d :: digits) = digits.foldl (fun value c => value * 10 + (c.toNat - 48))
          (d.toNat - 48) := by
        rw [decimalValue, List.foldl_cons, Nat.zero_mul, Nat.zero_add]
      rw [value, toDigits_foldl digits later positive, Nat.toDigits_of_lt_base small, same]
      exact (rest.append (d :: digits)).keep c

private theorem boundsText_split {bounds : List Char} (read : boundsText text = some bounds) :
    text = bounds ++ '\x7d' :: text.drop (bounds.length + 1) ∧ ∀ c ∈ bounds, c.isDigit = true ∨ c = ',' := by
  induction text generalizing bounds with
  | nil => simp [boundsText] at read
  | cons c rest ih =>
    by_cases closing : c = '\x7d'
    · subst closing
      rw [boundsText, Option.some.injEq] at read
      subst read
      simp
    · rw [boundsText.eq_3 c rest closing] at read
      split at read
      next member =>
        obtain ⟨bounds, found, rfl⟩ := Option.map_eq_some_iff.mp read
        obtain ⟨split, all⟩ := ih found
        refine ⟨?_, List.forall_mem_cons.mpr ⟨by simpa using member, all⟩⟩
        rw [List.length_cons, List.drop_succ_cons, List.cons_append, ← split]
      next => cases read

private theorem boundsText_append {bounds : List Char} (all : ∀ c ∈ bounds, c.isDigit = true ∨ c = ',')
    (rest : List Char) : boundsText (bounds ++ '\x7d' :: rest) = some bounds := by
  induction bounds with
  | nil => rfl
  | cons c bounds ih =>
    obtain ⟨here, later⟩ := List.forall_mem_cons.mp all
    have closing : c ≠ '\x7d' := by
      rintro rfl
      revert here
      decide
    rw [List.cons_append, boundsText.eq_3 c _ closing, if_pos (by simpa using here), ih later, Option.map_some]

/-- Only what stands before the next brace tells whether a brace opens a repetition. -/
theorem boundsText_ahead (text : List Char) : boundsText (text.takeWhile (· != '\x7b')) = boundsText text := by
  induction text with
  | nil => rfl
  | cons c rest ih =>
    by_cases brace : c = '\x7b'
    · subst brace
      rfl
    · rw [List.takeWhile_cons_of_pos (by simpa using brace)]
      by_cases closing : c = '\x7d'
      · subst closing
        rfl
      · rw [boundsText.eq_3 c _ closing, boundsText.eq_3 c _ closing, ih]

/-- Digits of a number that a bound may be. -/
structure Digits (digits : List Char) (n : Nat) : Prop where
  some : digits ≠ []
  digit : ∀ d ∈ digits, d.isDigit = true
  value : decimalValue digits = n
  small : n ≤ maxBound

/-- Digits of a bound, or nothing in place of one that is missing. -/
inductive Bound : List Char → Option Nat → Prop
  | missing : Bound [] none
  | given {digits : List Char} {n : Nat} : Digits digits n → Bound digits (some n)

/-- What stands between the braces of a repetition. -/
inductive Bounds : List Char → Repetition → Prop
  | exactly {digits : List Char} {n : Nat} : Digits digits n → Bounds digits (.exactly n)
  | between {first second : List Char} {least most : Option Nat} : Bound first least → Bound second most →
      ¬(least = none ∧ most = none) → (∀ l ∈ least, ∀ m ∈ most, l ≤ m) → Bounds (first ++ ',' :: second)
      (.between least most)

namespace Digits

variable {digits : List Char} {n : Nat}

theorem unpadded (valid : Digits digits n) {c : Char} (lead : c = '\x7b' ∨ c = ',') (rest : Unpadded text left) :
    Unpadded (c :: (digits ++ text)) (c :: ((toString n).toList ++ left)) := by
  rw [← valid.value]
  exact unpadded_bound lead valid.some valid.digit rest

/-- The digits a number is written with are digits of that number. -/
theorem written (valid : Digits digits n) : Digits (toString n).toList n := by
  have same : (toString n).toList = Nat.toDigits 10 n := by
    rw [Nat.toString_eq_repr, Nat.repr_eq_ofList_toDigits, String.toList_ofList]
  have value : decimalValue (Nat.toDigits 10 n) = Nat.ofDigitChars 10 (Nat.toDigits 10 n) 0 := by
    rw [decimalValue, Nat.ofDigitChars]
    simp only [Nat.mul_comm]
    rfl
  rw [same]
  exact ⟨Nat.toDigits_ne_nil, fun d member => Nat.isDigit_of_mem_toDigits (by decide) (by decide) member,
    by rw [value, Nat.ofDigitChars_toDigits (by decide) (by decide)], valid.small⟩

end Digits

namespace Bound

variable {digits : List Char} {n : Option Nat}

theorem digit (valid : Bound digits n) : ∀ d ∈ digits, d.isDigit = true := by
  cases valid with
  | missing => simp
  | given valid => exact valid.digit

private theorem no_comma (valid : Bound digits n) : ',' ∉ digits := fun member => by
  cases valid.digit _ member

private theorem empty_iff (valid : Bound digits n) : digits = [] ↔ n = none := by
  cases valid with
  | missing => simp
  | given valid => simp [valid.some]

theorem unpadded (valid : Bound digits n) {c : Char} (lead : c = '\x7b' ∨ c = ',') (rest : Unpadded text left) :
    Unpadded (c :: (digits ++ text)) (c :: ((bound n).toList ++ left)) := by
  cases valid with
  | missing => exact rest.keep c
  | given valid => exact valid.unpadded lead rest

theorem written (valid : Bound digits n) : Bound (bound n).toList n := by
  cases valid with
  | missing => exact .missing
  | given valid => exact .given valid.written

end Bound

private theorem bound_iff {digits : List Char} (all : ∀ d ∈ digits, d.isDigit = true) (text : List Char)
    {n : Option Nat} : bound? text digits = .ok n ↔ Bound digits n := by
  unfold bound?
  constructor
  · intro read
    split at read
    next none =>
      obtain rfl := List.isEmpty_iff.mp none
      obtain rfl := Except.ok.inj read
      exact .missing
    next some =>
      dsimp only at read
      split at read
      next small =>
        obtain rfl := Except.ok.inj read
        exact .given ⟨by simpa using some, all, rfl, small⟩
      next => cases read
  · rintro (_ | ⟨some, _, rfl, small⟩)
    · rfl
    · rw [if_neg (by simpa using some)]
      exact if_pos small

theorem read_bind {α β : Type} {step : Except Fault α} {next : α → Except Fault β} {b : β}
    (read : (step >>= next) = .ok b) : ∃ a, step = .ok a ∧ next a = .ok b := by
  cases step with
  | error fault => cases read
  | ok a => exact ⟨a, rfl, read⟩

private theorem takeWhile_no_comma {bounds : List Char} (absent : ',' ∉ bounds) :
    bounds.takeWhile (· != ',') = bounds :=
  List.takeWhile_eq_self_iff.mpr fun d member => by simpa using fun same : d = ',' => absent (same ▸ member)

private theorem takeWhile_comma {first : List Char} (absent : ',' ∉ first) (second : List Char) :
    (first ++ ',' :: second).takeWhile (· != ',') = first := by
  rw [List.takeWhile_append_of_pos fun d member => by simpa using fun same : d = ',' => absent (same ▸ member),
    List.takeWhile_cons_of_neg (by simp), List.append_nil]

/-- What is read as bounds: digits and at most one comma, up to the closing brace. -/
theorem boundsAfter_iff {repetition : Repetition} {length : Nat} : boundsAfter text = .ok (some (repetition, length)) ↔
    ∃ bounds rest, text = bounds ++ '\x7d' :: rest ∧ length = bounds.length + 1 ∧ Bounds bounds repetition := by
  unfold boundsAfter
  constructor
  · intro read
    cases found : boundsText text with
    | none => simp [found] at read
    | some bounds =>
      obtain ⟨whole, members⟩ := boundsText_split found
      simp only [found] at read
      by_cases comma : ',' ∈ bounds
      · obtain ⟨first, second, rfl, absent⟩ := List.eq_append_cons_of_mem comma
        obtain ⟨before, _, behind⟩ : (∀ d ∈ first, _) ∧ _ ∧ ∀ d ∈ second, _ := by
          simpa only [List.forall_mem_append, List.forall_mem_cons] using members
        simp only [takeWhile_comma absent, List.drop_left] at read
        split at read
        next => simp at read
        next once =>
          obtain ⟨single, given⟩ : ',' ∉ second ∧ (first = [] → second ≠ []) := by simpa using once
          obtain ⟨least, low, read⟩ := read_bind read
          obtain ⟨most, high, read⟩ := read_bind read
          have low := (bound_iff (fun d member => (before d member).resolve_right fun same =>
            absent (same ▸ member)) _).mp low
          have high := (bound_iff (fun d member => (behind d member).resolve_right fun same =>
            single (same ▸ member)) _).mp high
          obtain ⟨ordered, rfl, rfl⟩ : (∀ l ∈ least, ∀ m ∈ most, l ≤ m) ∧ Repetition.between least most = repetition ∧
              (first ++ ',' :: second).length + 1 = length := by
            split at read
            next l m =>
              split at read
              next => cases read
              next ordered => exact ⟨by simpa using ordered, by simpa [pure, Except.pure] using read⟩
            next missing =>
              refine ⟨fun l low m high => ?_, by simpa [pure, Except.pure] using read⟩
              exact (missing l m low high).elim
          exact ⟨_, _, whole, rfl, .between low high (fun none =>
            given (low.empty_iff.mpr none.1) (high.empty_iff.mpr none.2))
            ordered⟩
      · have digit : ∀ d ∈ bounds, d.isDigit = true := fun d member =>
          (members d member).resolve_right fun same => comma (same ▸ member)
        simp only [takeWhile_no_comma comma, List.drop_length] at read
        split at read
        next => simp at read
        next some =>
          obtain ⟨count, value, result⟩ := read_bind read
          obtain ⟨rfl, rfl⟩ : Repetition.exactly (count.getD 0) = repetition ∧ bounds.length + 1 = length := by
            simpa [pure, Except.pure] using result
          cases (bound_iff digit bounds).mp value with
          | missing => simp at some
          | given valid => exact ⟨bounds, _, whole, rfl, .exactly valid⟩
  · rintro ⟨bounds, rest, rfl, rfl, valid⟩
    cases valid with
    | exactly valid =>
      rename_i n
      have absent : ',' ∉ bounds := (Bound.given valid).no_comma
      rw [boundsText_append fun d member => .inl (valid.digit d member)]
      simp only [takeWhile_no_comma absent, List.drop_length]
      rw [if_neg (by simpa using valid.some), (bound_iff valid.digit bounds).mpr (.given valid)]
      rfl
    | between low high given ordered =>
      rename_i first second least most
      have all : ∀ d ∈ first ++ ',' :: second, d.isDigit = true ∨ d = ',' :=
        List.forall_mem_append.mpr ⟨fun d member => .inl (low.digit d member),
          List.forall_mem_cons.mpr ⟨.inr rfl, fun d member => .inl (high.digit d member)⟩⟩
      rw [boundsText_append all]
      simp only [takeWhile_comma low.no_comma, List.drop_left]
      rw [if_neg
        (by simpa [high.no_comma] using fun none other => given ⟨low.empty_iff.mp none, high.empty_iff.mp other⟩),
        (bound_iff low.digit _).mpr low, (bound_iff high.digit _).mpr high]
      cases least with
      | none => rfl
      | some l =>
        cases most with
        | none => rfl
        | some m => exact if_neg (Nat.not_lt.mpr (ordered l rfl m rfl))

/-- Bounds are written with digits that are read as the same bounds. -/
theorem Bounds.written {bounds : List Char} {repetition : Repetition} (valid : Bounds bounds repetition) :
    ∃ again, repetition.text.toList = '\x7b' :: (again ++ ['\x7d']) ∧ Bounds again repetition ∧
      ∀ {text left : List Char}, Unpadded text left → Unpadded ('\x7b' :: (bounds ++ text))
      ('\x7b' :: (again ++ left)) := by
  cases valid with
  | exactly valid =>
    rename_i n
    exact ⟨(toString n).toList, by simp [Repetition.text, String.toList_append], .exactly valid.written,
      fun rest => valid.unpadded (.inl rfl) rest⟩
  | between low high given ordered =>
    rename_i first second least most
    refine ⟨(bound least).toList ++ ',' :: (bound most).toList, by simp [Repetition.text, String.toList_append],
      .between low.written high.written given ordered, fun {text left} rest => ?_⟩
    simpa only [List.append_assoc, List.cons_append] using low.unpadded (.inl rfl) (high.unpadded (.inr rfl) rest)

end Regexp

end YaraRules
