import YaraRules.Proofs.HexWords
import YaraRules.Proofs.RegexpWords

/-! Block comments. In normal mode a comment ends at the first asterisk with a slash behind it. In
a hex string asterisks that follow one another count in pairs, and only one that has no partner
before it closes the comment: a comment that ends in two asterisks and a slash goes on. -/

namespace YaraRules.Lexer

variable {bytes rest front : Bytes} {pairs : Bool} {b : UInt8} {i length : Nat}

/-! ### Where a comment closes -/

/-- How many asterisks stand right before a place. -/
def starsBefore (bytes : Bytes) (i : Nat) : Nat := ((bytes.take i).reverse.takeWhile (· == 0x2A)).length

/-- There is an asterisk that may close a comment. With `pairs` the asterisk before it must not be one itself. -/
def Live (pairs : Bool) (bytes : Bytes) (i : Nat) : Prop :=
  bytes[i]? = some 0x2A ∧ (pairs = true → 2 ∣ starsBefore bytes i)

/-- The comment goes on behind an asterisk: with another one, or with a whole character that is no slash. -/
def GoesOn (bytes : Bytes) (i : Nat) : Prop :=
  bytes[i + 1]? ≠ some 0x2F ∧ (bytes[i + 1]? = some 0x2A ∨ (Utf8.first? (bytes.drop (i + 1))).isSome)

/-- What follows the opening of a comment takes so many bytes, up to the first slash behind an
asterisk that may close it. -/
def Closing (pairs : Bool) (bytes : Bytes) (length : Nat) : Prop :=
  ∃ i, length = i + 2 ∧ Live pairs bytes i ∧ bytes[i + 1]? = some 0x2F ∧ ∀ j < i, Live pairs bytes j → GoesOn bytes j

private theorem starsBefore_append (even : 2 ∣ starsBefore front front.length) (i : Nat) :
    2 ∣ starsBefore (front ++ rest) (front.length + i) ↔ 2 ∣ starsBefore rest i := by
  unfold starsBefore at even ⊢
  rw [List.take_length] at even
  rw [List.take_length_add_append, List.reverse_append, List.takeWhile_append]
  split_ifs with all
  · rw [List.length_append, (List.takeWhile_prefix _).eq_of_length all, Nat.dvd_add_left even]
  · exact .rfl

private theorem live_append (even : pairs = true → 2 ∣ starsBefore front front.length) (i : Nat) :
    Live pairs (front ++ rest) (front.length + i) ↔ Live pairs rest i := by
  unfold Live
  rw [List.getElem?_append_right (Nat.le_add_right _ _), Nat.add_sub_cancel_left]
  exact and_congr_right fun _ => forall_congr' fun paired => starsBefore_append (even paired) i

private theorem goesOn_append (i : Nat) : GoesOn (front ++ rest) (front.length + i) ↔ GoesOn rest i := by
  unfold GoesOn
  rw [Nat.add_assoc, List.getElem?_append_right (Nat.le_add_right _ _), Nat.add_sub_cancel_left,
    List.drop_length_add_append]

private theorem closing_append (even : pairs = true → 2 ∣ starsBefore front front.length)
    (passed : ∀ j < front.length, Live pairs (front ++ rest) j → GoesOn (front ++ rest) j) :
    Closing pairs (front ++ rest) length ↔ ∃ n, length = front.length + n ∧ Closing pairs rest n := by
  constructor
  · rintro ⟨i, rfl, live, slash, first⟩
    have behind : front.length ≤ i := Nat.le_of_not_lt fun inside => (passed i inside live).1 slash
    obtain ⟨k, rfl⟩ := Nat.exists_eq_add_of_le behind
    rw [live_append even] at live
    rw [Nat.add_assoc, List.getElem?_append_right (Nat.le_add_right _ _), Nat.add_sub_cancel_left] at slash
    refine ⟨k + 2, Nat.add_assoc .., k, rfl, live, slash, fun j before alive => ?_⟩
    exact goesOn_append j |>.mp (first _ (Nat.add_lt_add_left before _) ((live_append even j).mpr alive))
  · rintro ⟨_, rfl, k, rfl, live, slash, first⟩
    refine ⟨front.length + k, (Nat.add_assoc ..).symm, (live_append even k).mpr live, ?_, fun j before alive => ?_⟩
    · rwa [Nat.add_assoc, List.getElem?_append_right (Nat.le_add_right _ _), Nat.add_sub_cancel_left]
    · obtain inside | outside := Nat.lt_or_ge j front.length
      · exact passed j inside alive
      · obtain ⟨k', rfl⟩ := Nat.exists_eq_add_of_le outside
        exact (goesOn_append k').mpr (first k' (Nat.lt_of_add_lt_add_left before) ((live_append even k').mp alive))

private theorem not_closing_nil : ¬Closing pairs [] length := by
  rintro ⟨i, _, live, _⟩
  simp [Live] at live

private theorem closing_plain (other : b ≠ 0x2A) :
    Closing pairs (b :: rest) length ↔ ∃ n, length = 1 + n ∧ Closing pairs rest n := by
  refine @closing_append rest [b] pairs length (fun _ => ?_) fun j inside live => ?_
  · simp [starsBefore, other]
  · obtain rfl : j = 0 := Nat.lt_one_iff.mp inside
    exact absurd (Option.some.inj live.1) other

private theorem live_first (rest : Bytes) : Live pairs (0x2A :: rest) 0 := ⟨rfl, fun _ => Nat.dvd_zero 2⟩

private theorem closing_slash : Closing pairs (0x2A :: 0x2F :: rest) length ↔ length = 2 := by
  constructor
  · rintro ⟨i, rfl, _, _, first⟩
    cases i with
    | zero => rfl
    | succ i => exact absurd rfl (first 0 (Nat.succ_pos i) (live_first _)).1
  · rintro rfl
    exact ⟨0, rfl, live_first _, rfl, nofun⟩

/-- Behind an asterisk that may close it the comment goes on, or has closed. -/
theorem closing_star (other : rest.head? ≠ some 0x2F) (closing : Closing pairs (0x2A :: rest) length) :
    GoesOn (0x2A :: rest) 0 := by
  obtain ⟨i, rfl, _, slash, first⟩ := closing
  cases i with
  | zero => exact absurd (List.head?_eq_getElem? .. ▸ slash) other
  | succ i => exact first 0 (Nat.succ_pos i) (live_first _)

/-- Without pairs, the second of two asterisks may close the comment just as the first. -/
theorem closing_single : Closing false (0x2A :: 0x2A :: rest) length ↔ ∃ n, length = 1 + n ∧
    Closing false (0x2A :: rest) n := by
  refine @closing_append (0x2A :: rest) [0x2A] false length nofun fun j inside _ => ?_
  obtain rfl : j = 0 := Nat.lt_one_iff.mp inside
  exact ⟨by simp, .inl rfl⟩

private theorem closing_pair : Closing true (0x2A :: 0x2A :: rest) length ↔ ∃ n, length = 2 + n ∧
    Closing true rest n := by
  refine @closing_append rest [0x2A, 0x2A] true length (fun _ => by decide) fun j inside live => ?_
  match j, inside with
  | 0, _ => exact ⟨by simp, .inl rfl⟩
  | 1, _ => exact absurd (live.2 rfl) (by simp [starsBefore])

private theorem closing_whole (star : b ≠ 0x2A) (slash : b ≠ 0x2F) (whole : (Utf8.first? (b :: rest)).isSome) :
    Closing pairs (0x2A :: b :: rest) length ↔ ∃ n, length = 2 + n ∧ Closing pairs rest n := by
  refine @closing_append rest [0x2A, b] pairs length (fun _ => ?_) fun j inside live => ?_
  · simp [starsBefore, star]
  · match j, inside with
    | 0, _ => exact ⟨by simpa using slash, .inr whole⟩
    | 1, _ => exact absurd (Option.some.inj live.1) star

private theorem closing_positive (closing : Closing pairs bytes length) : 2 ≤ length := by
  obtain ⟨i, rfl, _⟩ := closing
  exact Nat.le_add_left 2 i

/-- What was read in front of the bytes, as far as it matters. -/
def pending (star : Bool) : Bytes := if star then [0x2A] else []

private theorem blockFrom_iff (pairs : Bool) : ∀ (rest : Bytes) (star : Bool) (n : Nat),
    blockFrom pairs star rest = some n ↔ Closing pairs (pending star ++ rest) ((pending star).length + n)
  | [], star, n => by
    refine ⟨nofun, fun closing => ?_⟩
    cases star with
    | false => exact absurd closing not_closing_nil
    | true => exact absurd (closing_star (by simp) closing) (by simp [GoesOn, Utf8.first?])
  | b :: rest, star, n => by
    have later (star : Bool) : (blockFrom pairs star rest).map (· + 1) = some n ↔
        ∃ k, k + 1 = n ∧ Closing pairs (pending star ++ rest) ((pending star).length + k) := by
      rw [Option.map_eq_some_iff]
      exact exists_congr fun k => by rw [blockFrom_iff pairs rest star k, and_comm]
    have inside := later true
    have outside := later false
    simp only [pending, if_true, if_false, Bool.false_eq_true, List.nil_append, List.length_nil, Nat.zero_add,
      List.singleton_append, List.length_singleton] at inside outside ⊢
    cases star with
    | false =>
      simp only [Bool.false_eq_true, if_false, List.nil_append, List.length_nil, Nat.zero_add]
      by_cases asterisk : b = 0x2A
      · subst asterisk
        have step : blockFrom pairs false (0x2A :: rest) = (blockFrom pairs true rest).map (· + 1) := rfl
        rw [step, inside]
        refine ⟨?_, fun closing => ?_⟩
        · rintro ⟨k, rfl, closing⟩
          rwa [Nat.add_comm]
        · have least := closing_positive closing
          exact ⟨n - 1, by omega, by rwa [show 1 + (n - 1) = n by omega]⟩
      · have step : blockFrom pairs false (b :: rest) = (blockFrom pairs false rest).map (· + 1) := by
          rw [blockFrom, if_neg Bool.false_ne_true, beq_eq_false_iff_ne.mpr asterisk]
        rw [step, outside, closing_plain asterisk]
        exact exists_congr fun k => and_congr_left fun _ => by omega
    | true =>
      simp only [if_true, List.singleton_append, List.length_singleton]
      rw [blockFrom, if_pos rfl]
      by_cases slash : b = 0x2F
      · rw [if_pos (beq_iff_eq.mpr slash), slash, closing_slash, Option.some.injEq]
        omega
      rw [if_neg (by simpa using slash)]
      by_cases asterisk : b = 0x2A
      · rw [if_pos (beq_iff_eq.mpr asterisk), asterisk]
        cases pairs with
        | true =>
          rw [show (!true) = false from rfl, outside, closing_pair]
          exact exists_congr fun k => and_congr_left fun _ => by omega
        | false =>
          rw [show (!false) = true from rfl, inside, closing_single]
          constructor
          · rintro ⟨k, same, closing⟩
            exact ⟨1 + k, by omega, closing⟩
          · rintro ⟨m, same, closing⟩
            have least := closing_positive closing
            exact ⟨m - 1, by omega, by rwa [show 1 + (m - 1) = m by omega]⟩
      rw [if_neg (by simpa using asterisk)]
      by_cases whole : (Utf8.first? (b :: rest)).isSome
      · rw [if_pos whole, outside, closing_whole asterisk slash whole]
        exact exists_congr fun k => and_congr_left fun _ => by omega
      · rw [if_neg whole]
        refine ⟨fun none => absurd none (Option.some_ne_none n).symm, fun closing => ?_⟩
        have goes := (closing_star (by simpa using slash) closing).2
        simp [asterisk, whole] at goes

theorem blockComment_iff : blockComment? pairs (0x2F :: 0x2A :: rest) = some length ↔ ∃ n, length = n + 2 ∧
    Closing pairs rest n := by
  have closes (n : Nat) := blockFrom_iff pairs rest false n
  simp only [pending, if_false, Bool.false_eq_true, List.nil_append, List.length_nil, Nat.zero_add] at closes
  rw [blockComment?, Option.map_eq_some_iff]
  exact exists_congr fun n => by rw [closes n, and_comm, eq_comm]

/-- In a hex string the second of two asterisks does not close a comment, and it may go on to the end of another one. -/
example : blockComment? false (Bytes.ofText "/* a **/ 02 /* b */") = some 8 ∧
    blockComment? true (Bytes.ofText "/* a **/ 02 /* b */") = some 19 := by
  decide

private theorem blockComment_long (found : blockComment? pairs (0x2F :: 0x2A :: rest) = some length) : 4 ≤ length := by
  obtain ⟨n, rfl, closing⟩ := blockComment_iff.mp found
  exact Nat.add_le_add_right (closing_positive closing) 2

/-! ### Comments as tokens -/

private theorem lexeme_comment : lexeme? .normal (0x2F :: 0x2A :: rest) = some (.token .blockComment, length) ↔
    blockComment? false (0x2F :: 0x2A :: rest) = some length := by
  constructor
  · intro found
    simpa [classes, eq_comm] using class_of_lexeme found (by decide)
  · intro found
    have more := blockComment_long found
    obtain ⟨float, integer⟩ := @number_lead (0x2A :: rest) 0x2F rfl
    have regexp : regexp? (0x2F :: 0x2A :: rest) = none := rfl
    have line : lineComment? (0x2F :: 0x2A :: rest) = none := rfl
    rw [lexeme_eq]
    refine longest_later ?_ fun candidate member n here =>
      Nat.lt_of_le_of_lt (fixeds_slash _ candidate member n here) (by omega)
    simp only [classes, wildcard?, sigil?, float, integer, string_lead (show (0x2F : UInt8) ≠ 0x22 by decide), regexp,
      found, line, blanks_lead (show isWhite 0x2F = false from rfl), newLine_lead (show isWhite 0x2F = false from rfl),
      identifier_lead (show (isAlpha 0x2F || 0x2F == 0x5F) = false from rfl)]
    rfl

private theorem lexeme_hexComment : lexeme? .hexPattern (0x2F :: 0x2A :: rest) =
    (blockComment? true (0x2F :: 0x2A :: rest)).map fun length => (.token .blockComment, length) := by
  have fixed (mark : UInt8) (other : mark ≠ 0x2F) : fixed? [mark] (0x2F :: 0x2A :: rest) = none := by
    simp [fixed?, List.isPrefixOf, other]
  have line : lineComment? (0x2F :: 0x2A :: rest) = none := rfl
  simp only [lexeme?, candidates, hexByte_none (show isNibble 0x2F = false from rfl) (by decide),
    fixed 0x7C (by decide), fixed 0x28 (by decide), fixed 0x29 (by decide), fixed 0x5B (by decide),
    fixed 0x7D (by decide), blanks_lead (show isWhite 0x2F = false from rfl),
    newLine_lead (show isWhite 0x2F = false from rfl), line]
  cases blockComment? true (0x2F :: 0x2A :: rest) <;> rfl

private theorem jump_slash (rest : Bytes) : lexeme? .hexJump (0x2F :: rest) = none := by
  have integer : integer? false (0x2F :: rest) = none := rfl
  have fixed (mark : UInt8) (other : mark ≠ 0x2F) : fixed? [mark] (0x2F :: rest) = none := by
    simp [fixed?, List.isPrefixOf, other]
  simp only [lexeme?, candidates, integer, fixed 0x2D (by decide), fixed 0x5D (by decide),
    blanks_lead (show isWhite 0x2F = false from rfl), newLine_lead (show isWhite 0x2F = false from rfl)]
  rfl

private theorem outwards_normal (bytes : Bytes) : lexemeOutwards .normal bytes = (.normal, lexeme? .normal bytes) := by
  unfold lexemeOutwards Mode.outer
  cases found : lexeme? .normal bytes <;> rfl

/-- In a hex string, and in a jump of it, a comment that has no end is left to normal mode. -/
theorem outwards_hex {outer : Mode} (inside : outer ≠ .normal) : lexemeOutwards outer (0x2F :: 0x2A :: rest) =
    match blockComment? true (0x2F :: 0x2A :: rest) with
    | some length => (.hexPattern, some (.token .blockComment, length))
    | none => (.normal, lexeme? .normal (0x2F :: 0x2A :: rest)) := by
  have comment := @lexeme_hexComment rest
  unfold lexemeOutwards
  cases outer with
  | normal => exact absurd rfl inside
  | hexPattern =>
    rw [comment, Mode.outer]
    cases blockComment? true (0x2F :: 0x2A :: rest) with
    | some length => rfl
    | none => cases lexeme? .normal (0x2F :: 0x2A :: rest) <;> rfl
  | hexJump =>
    rw [jump_slash, Mode.outer, comment]
    cases blockComment? true (0x2F :: 0x2A :: rest) <;> rfl

/-- In one of the modes that are tried, a comment takes so many bytes behind its opening. Only where
it has no end in a hex string is it one of normal mode. -/
def EndsIn (outer : Mode) (rest : Bytes) (n : Nat) : Mode → Prop
  | .normal => Closing false rest n ∧ (outer = .normal ∨ ∀ m, ¬Closing true rest m)
  | .hexPattern => Closing true rest n ∧ outer ≠ .normal
  | .hexJump => False

theorem comment_ends {outer inner : Mode} : lexemeOutwards outer (0x2F :: 0x2A :: rest) =
    (inner, some (.token .blockComment, length)) ↔ ∃ n, length = n + 2 ∧ EndsIn outer rest n inner := by
  have normal := (@lexeme_comment rest length).trans blockComment_iff
  by_cases outside : outer = .normal
  · subst outside
    rw [outwards_normal, Prod.mk.injEq, normal]
    cases inner <;> simp [EndsIn]
  rw [outwards_hex outside]
  cases found : blockComment? true (0x2F :: 0x2A :: rest) with
  | some more =>
    obtain ⟨m, rfl, closing⟩ := blockComment_iff.mp found
    have only (n : Nat) : Closing true rest n ↔ n = m := by
      have read := @blockComment_iff rest true (n + 2)
      rw [found, Option.some.injEq] at read
      refine ⟨fun other => ?_, fun same => same ▸ closing⟩
      have same := read.mpr ⟨n, rfl, other⟩
      omega
    cases inner <;> simp [EndsIn, outside, only, eq_comm]
  | none =>
    have none (m : Nat) : ¬Closing true rest m := fun closing => by
      have read := blockComment_iff.mpr ⟨m, rfl, closing⟩
      rw [found] at read
      cases read
    rw [Prod.mk.injEq, normal]
    cases inner <;> simp [EndsIn, outside, none]

/-- There are no two asterisks one behind the other in the first bytes. -/
def Single (bytes : Bytes) (n : Nat) : Prop := ∀ i, i + 1 < n → bytes[i]? = some 0x2A → bytes[i + 1]? ≠ some 0x2A

private theorem live_single {n : Nat} (single : Single bytes n) {i : Nat} (inside : i < n) :
    Live true bytes i ↔ Live false bytes i := by
  refine ⟨fun live => ⟨live.1, nofun⟩, fun live => ⟨live.1, fun _ => ?_⟩⟩
  cases i with
  | zero => exact Nat.dvd_zero 2
  | succ i =>
    obtain ⟨within, _⟩ := List.getElem?_eq_some_iff.mp live.1
    have before : bytes[i] ≠ 0x2A := fun star => single i inside (List.getElem?_eq_some_iff.mpr ⟨_, star⟩) live.1
    have none : starsBefore bytes (i + 1) = 0 := by
      rw [starsBefore, List.take_succ_eq_append_getElem (by omega), List.reverse_append]
      simp [before]
    rw [none]
    exact Nat.dvd_zero 2

/-- A comment without two asterisks one behind the other ends at the same place in every mode. -/
theorem closing_alike (single : Single bytes length) : Closing true bytes length ↔ Closing false bytes length := by
  refine exists_congr fun i => and_congr_right fun same => ?_
  subst same
  have alike (j : Nat) (inside : j < i + 2) := live_single single inside
  rw [alike i (by omega)]
  refine and_congr_right fun _ => and_congr_right fun _ => forall₂_congr fun j before => ?_
  rw [alike j (by omega)]

end YaraRules.Lexer
