import Mathlib.Data.List.Infix
import YaraRules.Proofs.EscapedTexts

/-! Escape sequences between quotes. A text is read from left to right: a byte that is no
backslash means itself, and a backslash starts a sequence of two bytes or of four. Two
hexadecimal digits are read as a number, and a number may have a sign: a plus sign may stand
in place of the first digit. -/

namespace YaraRules

namespace Text

/-- An escape sequence and the byte it means. -/
inductive Sequence : Bytes → UInt8 → Prop
  | backslash : Sequence [0x5C, 0x5C] 0x5C
  | quote : Sequence [0x5C, 0x22] 0x22
  | lineFeed : Sequence [0x5C, 0x6E] 0x0A
  | tab : Sequence [0x5C, 0x74] 0x09
  | carriageReturn : Sequence [0x5C, 0x72] 0x0D
  | digits {a b high low : UInt8} : hexValue? a = some high → hexValue? b = some low →
      Sequence [0x5C, 0x78, a, b] (high * 16 + low)
  /-- A plus sign and one digit. -/
  | signed {b low : UInt8} : hexValue? b = some low → Sequence [0x5C, 0x78, 0x2B, b] low

/-- Every backslash starts a sequence, and with a byte in place of each sequence the first bytes
are the second. -/
inductive Decodes : Bytes → Bytes → Prop
  | nil : Decodes [] []
  | plain {b : UInt8} {rest bytes : Bytes} : b ≠ 0x5C → Decodes rest bytes → Decodes (b :: rest) (b :: bytes)
  | sequence {sequence rest bytes : Bytes} {value : UInt8} : Sequence sequence value → Decodes rest bytes →
      Decodes (sequence ++ rest) (value :: bytes)

/-- The first backslash that starts no sequence stands at the offset. -/
def FirstFault (written : Bytes) (offset : Nat) : Prop :=
  ∃ front bytes rest, written = front ++ 0x5C :: rest ∧ Decodes front bytes ∧ front.length = offset ∧
    ∀ sequence value, Sequence sequence value → ¬sequence <+: 0x5C :: rest

variable {written bytes : Bytes}

private theorem letterValue?_iff {b v : UInt8} : letterValue? b = some v ↔ Sequence [0x5C, b] v := by
  constructor
  · intro value
    unfold letterValue? at value
    split_ifs at value with backslash quote lineFeed tab carriageReturn
    all_goals
      obtain rfl := Option.some.inj value
      simp only [beq_iff_eq] at *
      subst b
      constructor
  · rintro (_ | _ | _ | _ | _) <;> rfl

private theorem hexPairValue?_iff {a b v : UInt8} : hexPairValue? a b = some v ↔ Sequence [0x5C, 0x78, a, b] v := by
  constructor
  · intro value
    unfold hexPairValue? at value
    split at value
    next plus =>
      obtain rfl := beq_iff_eq.mp plus
      exact .signed value
    next =>
      obtain ⟨high, first, value⟩ := Option.bind_eq_some_iff.mp value
      obtain ⟨low, second, value⟩ := Option.bind_eq_some_iff.mp value
      obtain rfl := Option.some.inj value
      exact .digits first second
  · rintro (_ | _ | _ | _ | _ | ⟨first, second⟩ | value)
    · have unsigned : a ≠ 0x2B := by
        rintro rfl
        cases first
      rw [hexPairValue?, if_neg (by simpa using unsigned), first, second]
      rfl
    · exact value

/-! ### Reading -/

/-- A sequence is a backslash and at least one more byte. -/
theorem Sequence.head {sequence : Bytes} {value : UInt8} (known : Sequence sequence value) :
    ∃ tail, sequence = 0x5C :: tail ∧ tail ≠ [] := by
  cases known <;> exact ⟨_, rfl, by simp⟩

private theorem unescapeFrom_sequence {sequence : Bytes} {value : UInt8} (known : Sequence sequence value)
    (rest : Bytes) (offset : Nat) :
    unescapeFrom offset (sequence ++ rest) = (unescapeFrom (offset + sequence.length) rest).map (value :: ·) := by
  have letter {b : UInt8} (known : Sequence [0x5C, b] value) :
      unescapeFrom offset ([0x5C, b] ++ rest) = (unescapeFrom (offset + 2) rest).map (value :: ·) :=
    (Escaped.letter (letterValue?_iff.mpr known)).unescapes rest offset
  have pair {a b : UInt8} (known : Sequence [0x5C, 0x78, a, b] value) :
      unescapeFrom offset ([0x5C, 0x78, a, b] ++ rest) = (unescapeFrom (offset + 4) rest).map (value :: ·) := by
    simp only [List.cons_append, List.nil_append]
    rw [unescapeFrom, hexPairValue?_iff.mpr known]
    cases unescapeFrom (offset + 4) rest <;> rfl
  cases known with
  | backslash => exact letter .backslash
  | quote => exact letter .quote
  | lineFeed => exact letter .lineFeed
  | tab => exact letter .tab
  | carriageReturn => exact letter .carriageReturn
  | digits first second => exact pair (.digits first second)
  | signed digit => exact pair (.signed digit)

private theorem unescapeFrom_fault {rest : Bytes} (none : ∀ sequence value, Sequence sequence value →
    ¬sequence <+: 0x5C :: rest) (offset : Nat) : unescapeFrom offset (0x5C :: rest) = .error offset := by
  generalize whole : 0x5C :: rest = written at none
  rw [unescapeFrom.eq_def]
  split
  · cases whole
  · split
    next value found => exact absurd (List.prefix_append _ _) (none _ _ (hexPairValue?_iff.mp found))
    next => rfl
  · split
    next value found => exact absurd (List.prefix_append _ _) (none _ _ (letterValue?_iff.mp found))
    next => rfl
  · obtain ⟨rfl, -⟩ := List.cons.inj whole
    rfl

theorem Decodes.unescapes (decodes : Decodes written bytes) (rest : Bytes) (offset : Nat) :
    unescapeFrom offset (written ++ rest) = (unescapeFrom (offset + written.length) rest).map (bytes ++ ·) := by
  induction decodes generalizing offset with
  | nil => exact unescapeFrom_plain rest [] offset nofun
  | plain other _ ih =>
    rw [List.cons_append, unescapeFrom.eq_4 _ _ _ (by simp [other]) (by simp [other]), if_neg (by simpa using other),
      ih, List.length_cons, Nat.add_right_comm, Nat.add_assoc]
    cases unescapeFrom _ rest <;> rfl
  | sequence known _ ih =>
    rw [List.append_assoc, unescapeFrom_sequence known, ih, List.length_append, Nat.add_assoc]
    cases unescapeFrom _ rest <;> rfl

/-! ### Every text is read -/

theorem Decodes.append {more others : Bytes} (front : Decodes written bytes) (back : Decodes more others) :
    Decodes (written ++ more) (bytes ++ others) := by
  induction front with
  | nil => exact back
  | plain other _ ih => exact ih.plain other
  | sequence known _ ih =>
    rw [List.append_assoc]
    exact ih.sequence known

theorem FirstFault.behind {front : Bytes} (decodes : Decodes front bytes) {offset : Nat}
    (fault : FirstFault written offset) : FirstFault (front ++ written) (front.length + offset) := by
  obtain ⟨inner, meant, rest, rfl, later, rfl, none⟩ := fault
  exact ⟨front ++ inner, _, rest, (List.append_assoc ..).symm, decodes.append later, List.length_append, none⟩

private theorem decodes_or_fault (written : Bytes) :
    (∃ bytes, Decodes written bytes) ∨ ∃ offset, FirstFault written offset := by
  -- What is read first is one byte or a sequence, and the rest is shorter.
  have step {front rest meant : Bytes} (decodes : Decodes front meant)
      (later : (∃ bytes, Decodes rest bytes) ∨ ∃ offset, FirstFault rest offset) :
      (∃ bytes, Decodes (front ++ rest) bytes) ∨ ∃ offset, FirstFault (front ++ rest) offset :=
    later.imp (fun ⟨_, rest⟩ => ⟨_, decodes.append rest⟩) fun ⟨_, fault⟩ => ⟨_, fault.behind decodes⟩
  induction length : written.length using Nat.strong_induction_on generalizing written with
  | _ n ih =>
    subst length
    cases written with
    | nil => exact .inl ⟨[], .nil⟩
    | cons b rest =>
      by_cases backslash : b = 0x5C
      · subst backslash
        by_cases found : ∃ sequence value, Sequence sequence value ∧ sequence <+: 0x5C :: rest
        · obtain ⟨sequence, value, known, rest', whole⟩ := found
          obtain ⟨tail, rfl, _⟩ := known.head
          rw [← whole] at ih ⊢
          exact step (by simpa using Decodes.sequence known .nil)
            (ih _ (by simp only [List.length_append, List.length_cons]; omega) rest' rfl)
        · exact .inr ⟨0, [], [], rest, rfl, .nil, rfl, fun sequence value known start =>
            found ⟨sequence, value, known, start⟩⟩
      · exact step (.plain backslash .nil) (ih _ (by simp) rest rfl)

private theorem unescapeFrom_fails {offset : Nat} (fault : FirstFault written offset) (start : Nat) :
    unescapeFrom start written = .error (start + offset) := by
  obtain ⟨front, bytes, rest, rfl, decodes, rfl, none⟩ := fault
  rw [decodes.unescapes, unescapeFrom_fault none]
  rfl

theorem unescapeFrom_iff (start : Nat) : unescapeFrom start written = .ok bytes ↔ Decodes written bytes := by
  have reads {bytes : Bytes} (decodes : Decodes written bytes) : unescapeFrom start written = .ok bytes := by
    have whole := decodes.unescapes [] start
    rw [List.append_nil] at whole
    rw [whole]
    exact congrArg Except.ok (List.append_nil bytes)
  refine ⟨fun read => ?_, reads⟩
  obtain ⟨others, decodes⟩ | ⟨offset, fault⟩ := decodes_or_fault written
  · obtain rfl := Except.ok.inj (read.symm.trans (reads decodes))
    exact decodes
  · cases read.symm.trans (unescapeFrom_fails fault start)

/-- Reading gives bytes if every backslash starts a sequence, and then each sequence is replaced by
its byte; else it gives the place of the first backslash that starts none. -/
theorem unescape_iff (text : String) : (∀ bytes, unescape text = .ok bytes ↔ Decodes (Bytes.ofText text) bytes) ∧
    ∀ offset, unescape text = .error offset ↔ FirstFault (Bytes.ofText text) offset := by
  refine ⟨fun bytes => unescapeFrom_iff 0, fun offset => ⟨fun read => ?_, fun fault => ?_⟩⟩
  · obtain ⟨bytes, decodes⟩ | ⟨other, fault⟩ := decodes_or_fault (Bytes.ofText text)
    · cases read.symm.trans ((unescapeFrom_iff 0).mpr decodes)
    · obtain rfl : offset = 0 + other := Except.error.inj (read.symm.trans (unescapeFrom_fails fault 0))
      rwa [Nat.zero_add]
  · rw [unescape, unescapeFrom_fails fault, Nat.zero_add]

end Text

end YaraRules
