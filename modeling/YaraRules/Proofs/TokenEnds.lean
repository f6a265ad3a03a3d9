import YaraRules.Proofs.JumpTokens
import YaraRules.Proofs.RawStrings

/-! How tokens end. Of all that the lexer finds, only blanks, line breaks and comments up to the
end of a line may end in white space. What ends in another character reads as a
text that does so, even where a part of it is no UTF-8. -/

namespace YaraRules

/-! ### Last characters -/

namespace Utf8

variable {bytes front back : Bytes} {c d : Char}

private theorem encodeChar_lead (c : Char) :
    ∃ b tail, String.utf8EncodeChar c = b :: tail ∧ isTail b = false ∧ ∀ t ∈ tail, isTail t := by
  have tail (n : Nat) : isTail (UInt8.ofNat (n % 64 + 128)) := by
    rw [isTail_iff, toNat_byte (by omega)]
    omega
  have one {n : Nat} : ∀ t ∈ [UInt8.ofNat (n % 64 + 128)], isTail t := List.forall_mem_singleton.mpr (tail n)
  have lead {n : Nat} (small : n < 256) (apart : n < 128 ∨ 192 ≤ n) : isTail (UInt8.ofNat n) = false := by
    rw [Bool.eq_false_iff, ne_eq, isTail_iff, toNat_byte small]
    omega
  have valid : c.val.toNat < 0x110000 := c.valid.elim (fun low => by omega) (·.2)
  rw [String.utf8EncodeChar.eq_1]
  generalize c.val.toNat = v at valid
  split_ifs
  · exact ⟨_, _, rfl, lead (by omega) (by omega), nofun⟩
  · exact ⟨_, _, rfl, lead (by omega) (by omega), one⟩
  · exact ⟨_, _, rfl, lead (by omega) (by omega), List.forall_mem_cons.mpr ⟨tail _, one⟩⟩
  · exact ⟨_, _, rfl, lead (by omega) (by omega),
      List.forall_mem_cons.mpr ⟨tail _, List.forall_mem_cons.mpr ⟨tail _, one⟩⟩⟩

private theorem encodeChar_last (same : front ++ String.utf8EncodeChar c = back ++ String.utf8EncodeChar d) :
    c = d := by
  have shorter {front : Bytes} {c d : Char} (same : front ++ String.utf8EncodeChar c = String.utf8EncodeChar d) :
      c = d := by
    obtain ⟨b, tail, here, lead, _⟩ := encodeChar_lead c
    obtain ⟨b', tail', there, _, tails⟩ := encodeChar_lead d
    cases front with
    | nil =>
      have read := first?_encode c []
      rw [List.append_nil, show String.utf8EncodeChar c = String.utf8EncodeChar d from same,
        ← List.append_nil (String.utf8EncodeChar d), first?_encode] at read
      exact (Prod.mk.inj (Option.some.inj read)).1.symm
    | cons first front =>
      rw [here, there, List.cons_append, List.cons.injEq] at same
      have inner := tails b (same.2 ▸ List.mem_append_right front List.mem_cons_self)
      rw [lead] at inner
      cases inner
  rcases List.append_eq_append_iff.mp same with ⟨between, _, there⟩ | ⟨between, _, here⟩
  · exact (shorter there.symm).symm
  · exact shorter here.symm

/-- Bytes that end in a character other than white space. -/
def Solid (bytes : Bytes) : Prop := ∃ front c, bytes = front ++ String.utf8EncodeChar c ∧ Text.isBlank c = false

theorem Solid.behind (solid : Solid bytes) (front : Bytes) : Solid (front ++ bytes) := by
  obtain ⟨inner, c, rfl, black⟩ := solid
  exact ⟨front ++ inner, c, (List.append_assoc ..).symm, black⟩

theorem Solid.take {skip length : Nat} (solid : Solid ((bytes.drop skip).take length)) :
    Solid (bytes.take (skip + length)) := by
  rw [List.take_add]
  exact solid.behind _

/-- A visible character of ASCII. -/
def isVisible (b : UInt8) : Bool := 0x21 ≤ b && b ≤ 0x7E

private theorem solid_visible {b : UInt8} (visible : isVisible b) : Solid [b] := by
  simp only [isVisible, Bool.and_eq_true, decide_eq_true_eq, UInt8.le_iff_toNat_le, UInt8.reduceToNat] at visible
  have value : (Char.ofNat b.toNat).val.toNat = b.toNat := val_ofNat (.inl (by omega))
  refine ⟨[], Char.ofNat b.toNat, ?_, ?_⟩
  · rw [String.utf8EncodeChar.eq_1, value, if_pos (by omega), List.nil_append, UInt8.ofNat_toNat]
  · rw [Bool.eq_false_iff]
    intro blank
    have code : (Char.ofNat b.toNat).toNat = b.toNat := value
    simp [Text.isBlank, Text.within, Text.blankRanges, code] at blank
    omega

private theorem solid_last {b : UInt8} (visible : isVisible b) (front : Bytes) : Solid (front ++ [b]) :=
  (solid_visible visible).behind front

private theorem solid_all (some : bytes ≠ []) (visible : ∀ b ∈ bytes, isVisible b) : Solid bytes := by
  obtain ⟨front, b, rfl⟩ := (List.eq_nil_or_concat' bytes).resolve_left some
  exact solid_last (visible b (by simp)) front

theorem Solid.last (solid : Solid bytes) : ∃ b, bytes.getLast? = some b ∧ b ≠ 0x0D := by
  obtain ⟨front, c, rfl, black⟩ := solid
  rw [List.getLast?_append_of_ne_nil _ (encodeChar_ne_nil c)]
  rcases encodeChar_cases c with ⟨b, _, rfl, single⟩ | high
  · refine ⟨b, by rw [single]; rfl, ?_⟩
    rintro rfl
    exact absurd black (by decide)
  · obtain ⟨b, last⟩ := List.getLast?_isSome.mpr (encodeChar_ne_nil c) |> Option.isSome_iff_exists.mp
    refine ⟨b, last, ?_⟩
    rintro rfl
    exact absurd (high _ (List.mem_of_getLast? last)) (by decide)

end Utf8

namespace Text

variable {bytes : Bytes}

/-- A text that ends in a character other than white space. -/
def Firm (text : String) : Prop := ∃ c, text.toList.getLast? = some c ∧ isBlank c = false

theorem Firm.behind {text : String} (firm : Firm text) (front : String) : Firm (front ++ text) := by
  obtain ⟨c, last, black⟩ := firm
  exact ⟨c, by rw [String.toList_append, List.getLast?_append, last, Option.some_or], black⟩

theorem Firm.ne_empty {text : String} (firm : Firm text) : text ≠ "" := by
  rintro rfl
  obtain ⟨_, last, _⟩ := firm
  cases last

private theorem hexDigit_black {n : Nat} (small : n < 16) : isBlank (hexDigit n) = false := by
  have all : ∀ n < 16, isBlank (hexDigit n) = false := by decide
  exact all n small

/-- How bytes are read one step on: as a character, or as what stands for bytes of none. -/
theorem read_step (some : bytes ≠ []) : ∃ front back head last one, bytes = front ++ back ∧ front ≠ [] ∧
    readableFrom 0 false bytes = head ++ last :: readableFrom 0 false back ∧
    Utf8.decodeFrom 0 bytes = one :: Utf8.decodeFrom 0 back ∧
    (front = String.utf8EncodeChar last ∧ one = last ∨ isBlank last = false ∧ isBlank one = false) := by
  obtain ⟨b, rest, rfl⟩ := List.exists_cons_of_ne_nil some
  cases read : Utf8.first? (b :: rest) with
  | some found =>
    obtain ⟨c, width⟩ := found
    have whole := (Utf8.first?_bytes read).1
    obtain ⟨first, tail, bytes⟩ := List.exists_cons_of_ne_nil (Utf8.encodeChar_ne_nil c)
    rw [whole]
    refine ⟨_, _, [], c, c, rfl, Utf8.encodeChar_ne_nil c, readableFrom_char c _, ?_, .inl ⟨rfl, rfl⟩⟩
    have again := Utf8.first?_encode c ((b :: rest).drop width)
    rw [bytes, List.cons_append] at again ⊢
    rw [Utf8.decodeFrom, again]
    exact congrArg (c :: ·) (Utf8.decodeFrom_append _ tail)
  | none =>
    obtain ⟨front, back, rfl, width, _⟩ := Utf8.broken_bytes read
    have written : readableFrom 0 false (b :: (front ++ back)) =
        (b :: front).flatMap (fun b => '\\' :: 'x' :: hexPair b.toNat) ++ readableFrom 0 false back := by
      rw [readableFrom, read]
      dsimp only
      rw [← width, readableFrom_broken, List.flatMap_cons, List.append_assoc]
    obtain ⟨inner, t, split⟩ := (List.eq_nil_or_concat' (b :: front)).resolve_left (List.cons_ne_nil _ _)
    refine ⟨b :: front, back, inner.flatMap (fun b => '\\' :: 'x' :: hexPair b.toNat) ++
      ['\\', 'x', hexDigit (t.toNat / 16)], hexDigit (t.toNat % 16), Utf8.replacement, rfl, List.cons_ne_nil _ _, ?_,
      ?_, .inr ⟨hexDigit_black (by omega), by decide⟩⟩
    · rw [written, split]
      simp [hexPair]
    · rw [Utf8.decodeFrom, read]
      dsimp only
      rw [← width, Utf8.decodeFrom_append]

/-- The last character that bytes are read as is the one they end in, or stands for bytes of none. -/
theorem read_last : ∀ bytes : Bytes, bytes ≠ [] → ∃ written decoded,
    (readableFrom 0 false bytes).getLast? = some written ∧ (Utf8.decodeFrom 0 bytes).getLast? = some decoded ∧
      ((∃ front, bytes = front ++ String.utf8EncodeChar written) ∧ decoded = written ∨ isBlank written = false ∧
      isBlank decoded = false) := by
  intro bytes
  induction length : bytes.length using Nat.strong_induction_on generalizing bytes with
  | _ n ih =>
    intro some
    obtain ⟨front, back, head, last, one, rfl, first, readable, decodes, kind⟩ := read_step some
    rw [readable, decodes]
    by_cases ended : back = []
    · subst ended
      exact ⟨last, one,
        by simp [readableFrom], by simp [Utf8.decodeFrom], kind.imp (fun same => ⟨⟨[], by simp [same.1]⟩, same.2⟩) id⟩
    · have positive := List.length_pos_iff.mpr first
      rw [List.length_append] at length
      obtain ⟨written, decoded, spoken, meant, kind⟩ := ih back.length (by omega) back rfl ended
      refine ⟨written, decoded, ?_, ?_, kind.imp_left fun whole => ?_⟩
      · simp [List.getLast?_append, List.getLast?_cons, spoken]
      · simp [List.getLast?_cons, meant]
      · obtain ⟨⟨inner, same⟩, equal⟩ := whole
        exact ⟨⟨front ++ inner, by rw [List.append_assoc, ← same]⟩, equal⟩

private theorem solid_read (solid : Utf8.Solid bytes) : Firm (readable bytes) ∧ Firm bytes.toText := by
  obtain ⟨front, c, rfl, black⟩ := solid
  have some : front ++ String.utf8EncodeChar c ≠ [] := List.append_ne_nil_of_right_ne_nil _ (Utf8.encodeChar_ne_nil c)
  obtain ⟨written, decoded, last, last', kind⟩ := read_last _ some
  have blacks : isBlank written = false ∧ isBlank decoded = false := by
    rcases kind with ⟨⟨front', same⟩, rfl⟩ | blacks
    · rw [← Utf8.encodeChar_last same]
      exact ⟨black, black⟩
    · exact blacks
  exact ⟨⟨written, by rw [readable, String.toList_ofList, last], blacks.1⟩,
    ⟨decoded, by rw [Bytes.toText, String.toList_ofList, Utf8.decode, last'], blacks.2⟩⟩

end Text

/-! ### Classes -/

namespace Lexer

open Utf8 (Solid isVisible solid_visible solid_last solid_all)

variable {bytes rest : Bytes} {length : Nat}

private theorem visible_alpha {b : UInt8} (alpha : isAlpha b) : isVisible b := by
  simp only [isAlpha, isVisible, Bool.and_eq_true, Bool.or_eq_true, decide_eq_true_eq, UInt8.le_iff_toNat_le,
    UInt8.reduceToNat] at alpha ⊢
  omega

private theorem visible_hexDigit {b : UInt8} (digit : isHexDigit b) : isVisible b := by
  simp only [isHexDigit, isDigit, isVisible, Bool.and_eq_true, Bool.or_eq_true, decide_eq_true_eq,
    UInt8.le_iff_toNat_le, UInt8.reduceToNat] at digit ⊢
  omega

private theorem visible_digit {b : UInt8} (digit : isDigit b) : isVisible b :=
  visible_hexDigit (by simp [isHexDigit, digit])

private theorem visible_octal {b : UInt8} (digit : isOctalDigit b) : isVisible b := by
  simp only [isOctalDigit, isVisible, Bool.and_eq_true, decide_eq_true_eq, UInt8.le_iff_toNat_le,
    UInt8.reduceToNat] at digit ⊢
  omega

private theorem black_decimalDigit {c : Char} (digit : Text.isDecimalDigit c) : Text.isBlank c = false := by
  rw [Bool.eq_false_iff]
  intro blank
  simp only [Text.isBlank, Text.within, Text.blankRanges, List.any_cons, List.any_nil, Bool.or_false, Bool.or_eq_true,
    Bool.and_eq_true, decide_eq_true_eq] at blank
  simp only [Text.isDecimalDigit, Text.within, Text.decimalDigitRanges, List.any_cons, List.any_nil, Bool.or_false,
    Bool.or_eq_true, Bool.and_eq_true, decide_eq_true_eq] at digit
  omega

private theorem run1_solid {p : UInt8 → Bool} (visible : ∀ b, p b → isVisible b) (found : run1? p bytes = some length) :
    Solid (bytes.take length) := by
  obtain ⟨positive, most⟩ := run1_fits p bytes length found
  refine solid_all (fun none => ?_) fun b member => visible b (run1_taken found b member)
  have short := congrArg List.length none
  rw [List.length_take, List.length_nil] at short
  omega

private theorem wordFrom_solid : ∀ (rest front : Bytes), Solid front → Solid (front ++ rest.take (wordFrom 0 rest))
  | [], front, solid => by simpa [wordFrom] using solid
  | b :: rest, front, solid => by
    unfold wordFrom
    split_ifs with letter
    · have visible : isVisible b := by
        rcases Bool.or_eq_true_iff.mp letter with alpha | line
        · exact visible_alpha alpha
        · rw [beq_iff_eq.mp line]
          rfl
      rw [List.take_succ_cons, List.append_cons]
      exact wordFrom_solid rest _ (solid_last visible front)
    · split
      next c width read =>
        split_ifs with digit
        · obtain ⟨whole, same⟩ := Utf8.first?_bytes read
          obtain ⟨first, tail, bytes⟩ := List.exists_cons_of_ne_nil (Utf8.encodeChar_ne_nil c)
          rw [bytes, List.cons_append] at whole
          obtain ⟨rfl, behind⟩ := List.cons.inj whole
          have skipped : width - 1 = tail.length := by
            rw [← same, bytes, List.length_cons, Nat.add_sub_cancel]
          have shorter : ((b :: rest).drop width).length < (b :: rest).length := by
            rw [List.length_drop, ← same, bytes, List.length_cons]
            exact Nat.sub_lt (Nat.succ_pos _) (Nat.succ_pos _)
          have later := wordFrom_solid ((b :: rest).drop width) (front ++ String.utf8EncodeChar c)
            ⟨front, c, rfl, black_decimalDigit digit⟩
          rw [skipped, List.take_succ_cons, behind, wordFrom_skip, List.take_length_add_append]
          rwa [bytes, List.append_assoc] at later
        · simpa using solid
      · simpa using solid
termination_by rest => rest.length
decreasing_by
  · simp
  · exact shorter

private theorem identifier_solid (found : identifier? bytes = some length) : Solid (bytes.take length) := by
  unfold identifier? at found
  split at found
  next b rest =>
    split_ifs at found with letter
    cases found
    have visible : isVisible b := by
      rcases Bool.or_eq_true_iff.mp letter with alpha | line
      · exact visible_alpha alpha
      · rw [beq_iff_eq.mp line]
        rfl
    exact wordFrom_solid rest [b] (solid_visible visible)
  · cases found

private theorem sigil_solid {sigil : UInt8} (visible : isVisible sigil) (found : sigil? sigil bytes = some length) :
    Solid (bytes.take length) := by
  unfold sigil? at found
  split at found
  next b rest =>
    split_ifs at found with same
    cases found
    exact wordFrom_solid rest [b] (solid_visible (beq_iff_eq.mp same ▸ visible))
  · cases found

private theorem wildcard_solid (found : wildcard? bytes = some length) : Solid (bytes.take length) := by
  obtain ⟨n, _, found⟩ := Option.bind_eq_some_iff.mp found
  split_ifs at found with star
  cases found
  obtain ⟨rest, behind⟩ := List.head?_eq_some_iff.mp (beq_iff_eq.mp star)
  refine Solid.take ?_
  rw [behind]
  exact solid_visible (by decide)

private theorem float_solid (found : float? bytes = some length) : Solid (bytes.take length) := by
  obtain ⟨whole, _, found⟩ := Option.bind_eq_some_iff.mp found
  split at found
  next rest behind =>
    obtain ⟨n, digits, ended⟩ := Option.bind_eq_some_iff.mp found
    cases ended
    rw [Nat.add_assoc]
    refine Solid.take ?_
    rw [behind, Nat.add_comm 1 n, List.take_succ_cons]
    exact (run1_solid (fun _ => visible_digit) digits).behind [_]
  · cases found

private theorem based_solid {mark : UInt8} {p : UInt8 → Bool} (visible : ∀ b, p b → isVisible b)
    (found : based? mark p bytes = some length) : Solid (bytes.take length) := by
  unfold based? at found
  split at found
  · split_ifs at found
    obtain ⟨n, digits, rfl⟩ := Option.map_eq_some_iff.mp found
    exact (run1_solid visible digits).behind [_, _]
  · cases found

private theorem decimal_solid {units : Bool} (found : decimal? units bytes = some length) :
    Solid (bytes.take length) := by
  obtain ⟨n, digits, found⟩ := Option.bind_eq_some_iff.mp found
  have plain := run1_solid (fun _ => visible_digit) digits
  split at found
  next u rest behind =>
    cases found
    split_ifs
    · refine Solid.take ?_
      rw [behind]
      exact solid_last (by decide) [u]
    · exact plain
  · cases found
    exact plain

private theorem integer_solid {units : Bool} (found : integer? units bytes = some length) :
    Solid (bytes.take length) := by
  rcases Option.or_eq_some_iff.mp found with hexadecimal | ⟨_, found⟩
  · exact based_solid (fun _ => visible_hexDigit) hexadecimal
  · rcases Option.or_eq_some_iff.mp found with octal | ⟨_, decimal⟩
    · exact based_solid (fun _ => visible_octal) octal
    · exact decimal_solid decimal

private theorem string_solid (found : string? bytes = some length) : Solid (bytes.take length) := by
  obtain ⟨inner, taken⟩ := string_quoted found
  rw [taken]
  exact solid_last (by decide) _

private theorem regexpFrom_solid : ∀ (rest before : Bytes) (s : RegexpState) (best : Option Nat) (length : Nat),
    (∀ n, best = some n → Solid ((before ++ rest).take n)) → regexpFrom s before.length best rest = some length →
      Solid ((before ++ rest).take length)
  | [], _, _, _, length, known, found => known length found
  | b :: rest, before, s, best, length, known, found => by
    have whole : before ++ b :: rest = before ++ [b] ++ rest := List.append_cons ..
    have further {s : RegexpState} {best : Option Nat} (known : ∀ n,
      best = some n → Solid ((before ++ b :: rest).take n))
        (found : regexpFrom s (before.length + 1) best rest = some length) : Solid
          ((before ++ b :: rest).take length) := by
      rw [whole] at known ⊢
      exact regexpFrom_solid rest (before ++ [b]) s best length known (by simpa using found)
    unfold regexpFrom at found
    dsimp only at found
    split_ifs at found with dead closed
    · exact known length found
    · refine further (fun n better => ?_) found
      cases better
      rw [whole, show before.length + 1 = (before ++ [b]).length by simp, List.take_left]
      refine solid_last ?_ before
      obtain ⟨n, closed⟩ := Option.isSome_iff_exists.mp closed
      unfold RegexpState.step at closed
      dsimp only at closed
      split_ifs at closed with slash
      · rw [beq_iff_eq.mp (Bool.and_eq_true_iff.mp slash).2]
        rfl
      · split at closed
        · split_ifs at closed with modifier
          exact visible_alpha (Bool.and_eq_true_iff.mp modifier).2
        · cases closed
    · exact further (fun _ better => by cases better) found
    · exact further known found

private theorem regexp_solid (found : regexp? bytes = some length) : Solid (bytes.take length) := by
  unfold regexp? at found
  split at found
  next b rest =>
    split_ifs at found
    · exact regexpFrom_solid rest [0x2F, b] _ none length nofun found
    · exact regexpFrom_solid rest [0x2F, b] _ none length nofun found
  · cases found

private theorem blockFrom_closed {pairs : Bool} : ∀ (star : Bool) (bytes : Bytes)
    (length : Nat), blockFrom pairs star bytes = some length →
    ∃ inner, bytes.take length = inner ++ [0x2F]
  | _, [], _, found => by cases found
  | _, b :: rest, length, found => by
    have more {star : Bool} (found : (blockFrom pairs star rest).map (· + 1) = some length) :
        ∃ inner, (b :: rest).take length = inner ++ [0x2F] := by
      obtain ⟨n, inside, rfl⟩ := Option.map_eq_some_iff.mp found
      obtain ⟨inner, taken⟩ := blockFrom_closed star rest n inside
      exact ⟨b :: inner, congrArg (b :: ·) taken⟩
    unfold blockFrom at found
    split_ifs at found with _ slash
    · cases found
      exact ⟨[], by simpa using slash⟩
    · exact more found
    · exact more found
    · exact more found

private theorem blockComment_solid {pairs : Bool} (found : blockComment? pairs bytes = some length) :
    Solid (bytes.take length) := by
  unfold blockComment? at found
  split at found
  next rest =>
    obtain ⟨n, inside, rfl⟩ := Option.map_eq_some_iff.mp found
    obtain ⟨inner, taken⟩ := blockFrom_closed false rest n inside
    rw [List.take_succ_cons, List.take_succ_cons, taken]
    exact solid_last (by decide) (_ :: _ :: inner)
  · cases found

private theorem hexByte_solid (found : hexByte? bytes = some length) : Solid (bytes.take length) := by
  have visible {b : UInt8} (nibble : isNibble b) : isVisible b := by
    rcases Bool.or_eq_true_iff.mp nibble with digit | mark
    · exact visible_hexDigit digit
    · rw [beq_iff_eq.mp mark]
      rfl
  unfold hexByte? at found
  split at found
  next a b _ =>
    split_ifs at found with nibbles
    cases found
    exact solid_last (visible (Bool.and_eq_true_iff.mp nibbles).2) [_, a]
  next a b _ _ =>
    split_ifs at found with nibbles
    cases found
    exact solid_last (visible (Bool.and_eq_true_iff.mp nibbles).2) [a]
  · cases found

private theorem fixed_solid {text : Bytes} (found : fixed? text bytes = some length) (full : text ≠ [])
    (visible : ∀ b ∈ text, isVisible b) : Solid (bytes.take length) := by
  rw [fixed_taken found]
  exact solid_all full visible

/-! ### Ends -/

/-- How bytes end from what was found in them, given the bytes behind them. -/
def Ended : Lexeme → Bytes → Bytes → Prop
  | .blank, _, _ => True
  | .token .newLine, taken, behind => taken = [0x0A] ∨ taken = [0x0D, 0x0A] ∨ taken = [0x0D] ∧ behind.head? ≠ some 0x0A
  | .token .lineComment, taken, _ => ∃ inner, taken = 0x2F :: 0x2F :: inner ∧ ∀ b ∈ inner, b ≠ 0x0A ∧ b ≠ 0x0D
  | .token _, taken, _ => Solid taken

private theorem newLine_ended (found : newLine? bytes = some length) : Ended (.token .newLine) (bytes.take length)
    (bytes.drop length) := by
  unfold newLine? at found
  split at found
  · cases found
    exact .inr (.inl rfl)
  next rest other =>
    cases found
    refine .inr (.inr ⟨rfl, fun feed => ?_⟩)
    obtain ⟨later, split⟩ := List.head?_eq_some_iff.mp feed
    exact other later (split : rest = _)
  · cases found
    exact .inl rfl
  · cases found

private theorem lineComment_ended (found : lineComment? bytes = some length) :
    Ended (.token .lineComment) (bytes.take length) (bytes.drop length) := by
  unfold lineComment? at found
  split at found
  next rest =>
    cases found
    refine ⟨_, rfl, fun b member => ?_⟩
    rw [run, ← List.prefix_iff_eq_take.mp (List.takeWhile_prefix _)] at member
    simpa using List.all_eq_true.mp List.all_takeWhile b member
  · cases found

private theorem ended_solid {kind : TokenKind} (line : kind ≠ .newLine) (comment : kind ≠ .lineComment)
    {taken behind : Bytes} (solid : Solid taken) : Ended (.token kind) taken behind := by
  unfold Ended
  split
  · trivial
  next same =>
    cases same
    exact absurd rfl line
  next same =>
    cases same
    exact absurd rfl comment
  · exact solid

private theorem fixedTexts_ended : ∀ entry ∈ fixedTexts, (entry.2 ≠ .newLine ∧ entry.2 ≠ .lineComment) ∧ entry.1 ≠ [] ∧
    ∀ b ∈ entry.1, isVisible b := by
  decide +kernel

/-- Whatever is found in any mode ends as its kind does. -/
theorem candidates_ended (mode : Mode) (bytes : Bytes) : ∀ candidate ∈ candidates mode bytes, ∀ length,
    candidate.2 = some length → Ended candidate.1 (bytes.take length) (bytes.drop length) := by
  cases mode with
  | normal =>
    refine List.forall_mem_append.mpr ⟨fun candidate fixed length found => ?_, ?_⟩
    · obtain ⟨⟨text, kind⟩, listed, rfl⟩ := List.mem_map.mp fixed
      obtain ⟨⟨line, comment⟩, full, visible⟩ := fixedTexts_ended _ listed
      exact ended_solid line comment (fixed_solid found full visible)
    · simp only [List.forall_mem_cons]
      exact ⟨fun _ => sigil_solid (by decide), fun _ => wildcard_solid, fun _ => sigil_solid (by decide), fun _ =>
        sigil_solid (by decide), fun _ => sigil_solid (by decide), fun _ => identifier_solid, fun _ => float_solid,
        fun _ => integer_solid, fun _ => string_solid, fun _ => regexp_solid, fun _ => blockComment_solid,
        fun _ => lineComment_ended, fun _ _ => trivial, fun _ => newLine_ended, nofun⟩
  | hexPattern =>
    have mark {b : UInt8} (visible : isVisible b) {length : Nat} (found : fixed? [b] bytes = some length) :
        Solid (bytes.take length) :=
      fixed_solid found (List.cons_ne_nil _ _) (List.forall_mem_singleton.mpr visible)
    simp only [candidates, List.forall_mem_cons]
    exact ⟨fun _ => hexByte_solid, fun _ => mark (by decide), fun _ => mark (by decide), fun _ =>
      mark (by decide), fun _ => mark (by decide), fun _ => mark (by decide), fun _ _ => trivial,
      fun _ => newLine_ended, fun _ => blockComment_solid, fun _ => lineComment_ended, nofun⟩
  | hexJump =>
    have mark {b : UInt8} (visible : isVisible b) {length : Nat} (found : fixed? [b] bytes = some length) :
        Solid (bytes.take length) :=
      fixed_solid found (List.cons_ne_nil _ _) (List.forall_mem_singleton.mpr visible)
    simp only [candidates, List.forall_mem_cons]
    exact ⟨fun _ => mark (by decide), fun _ => integer_solid, fun _ => mark (by decide), fun _ _ => trivial, fun _ =>
      newLine_ended, nofun⟩

/-! ### Texts -/

open Text (Firm)

theorem firm_quoted (text : String) : Firm ("\"" ++ text ++ "\"") := ⟨'"', by simp [List.getLast?_cons], rfl⟩

private theorem withSigil_firm {sigil : Char} {text : String} (black : Text.isBlank sigil = false) (firm : Firm text) :
    Firm (TokenStream.withSigil sigil text) := by
  obtain ⟨c, last, black'⟩ := firm
  unfold TokenStream.withSigil
  cases chars : text.toList with
  | nil => simp [chars] at last
  | cons first rest =>
    cases rest with
    | nil => exact ⟨sigil, by simp, black⟩
    | cons second rest => exact ⟨c, by simpa [chars] using last, black'⟩

theorem writtenAs_firm (kind : TokenKind) {text : String} (firm : Firm text) :
    Firm (TokenStream.writtenAs kind text) := by
  unfold TokenStream.writtenAs
  split
  · exact firm_quoted text
  · exact withSigil_firm rfl firm
  · exact withSigil_firm rfl firm
  · exact withSigil_firm rfl firm
  · exact firm

theorem makeToken_firm {kind : TokenKind} {location : Location} {token : Token} (solid : Solid bytes)
    (made : makeToken kind bytes location = .ok token) : Firm
    (TokenStream.writtenAs token.kind token.literal.text) := by
  obtain ⟨readable, decoded⟩ := Text.solid_read solid
  unfold makeToken at made
  split at made
  · cases made
    exact firm_quoted _
  · split at made
    next literal found =>
      cases made
      rw [← integerLiteral_text found] at decoded
      exact decoded
    · cases made
  · cases made
    exact decoded
  · cases made
    by_cases yes : bytes.head? = some 0x74
    · rw [yes]
      show Firm "true"
      exact ⟨'e', by decide, rfl⟩
    · rw [beq_false_of_ne yes]
      show Firm "false"
      exact ⟨'e', by decide, rfl⟩
  · cases made
    exact writtenAs_firm _ readable

/-- A comment up to the end of its line reads as one. -/
theorem lineComment_read {inner : Bytes} : ∃ rest, Text.readable (0x2F :: 0x2F :: inner) = "//" ++ rest := by
  have read (bytes : Bytes) : Text.readableFrom 0 false (0x2F :: bytes) = '/' :: Text.readableFrom 0 false bytes :=
    Text.readableFrom_char '/' bytes
  refine ⟨Text.readable inner, ?_⟩
  rw [← String.toList_inj, String.toList_append, Text.readable, Text.readable, String.toList_ofList,
    String.toList_ofList, read, read]
  exact congrArg ('/' :: '/' :: ·) (String.toList_ofList ..).symm

end Lexer

end YaraRules
