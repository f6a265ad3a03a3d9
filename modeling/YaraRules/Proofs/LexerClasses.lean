import Mathlib.Tactic.SplitIfs
import YaraRules.Lexer.Basic

/-! What the classes of tokens take. Whatever the lexer finds at the head of some bytes takes one
of them at least and no more than there are, and what it takes has the form of its kind. -/

namespace YaraRules.Lexer

/-! ### Classes -/

/-- What is found at the head of the bytes takes some of them, and no more than there are. -/
def Fits (bytes : Bytes) (found : Option Nat) : Prop :=
  ∀ length, found = some length → 0 < length ∧ length ≤ bytes.length

variable {bytes rest : Bytes} {length : Nat}

private theorem fits_none : Fits bytes none := nofun

private theorem fits_some (positive : 0 < length) (enough : length ≤ bytes.length) : Fits bytes (some length) := by
  rintro _ ⟨⟩
  exact ⟨positive, enough⟩

private theorem fits_ite {c : Prop} [Decidable c] {yes no : Option Nat} (first : c → Fits bytes yes)
    (second : ¬c → Fits bytes no) : Fits bytes (if c then yes else no) := by
  split_ifs with holds
  · exact first holds
  · exact second holds

private theorem fits_map (before : Bytes) {found : Option Nat} (fits : ∀ length, found = some length →
    length ≤ rest.length) (some : before ≠ []) : Fits (before ++ rest) (found.map (· + before.length)) := by
  intro length taken
  obtain ⟨n, found, rfl⟩ := Option.map_eq_some_iff.mp taken
  have more := List.length_pos_iff.mpr some
  have least := fits n found
  simp only [List.length_append]
  omega

private theorem run_le (p : UInt8 → Bool) (bytes : Bytes) : run p bytes ≤ bytes.length :=
  (List.takeWhile_sublist p).length_le

theorem run1_fits (p : UInt8 → Bool) (bytes : Bytes) : Fits bytes (run1? p bytes) := by
  unfold run1?
  split
  · exact fits_none
  next more => exact fits_some (Nat.pos_of_ne_zero more) (run_le p bytes)

private theorem fixed_fits {text : Bytes} (some : text ≠ []) (bytes : Bytes) : Fits bytes (fixed? text bytes) :=
  fits_ite (fun starts => fits_some (List.length_pos_iff.mpr some) (List.isPrefixOf_iff_prefix.mp starts).length_le)
    fun _ => fits_none

private theorem wordFrom_le : ∀ (skip : Nat) (bytes : Bytes), wordFrom skip bytes ≤ bytes.length
  | 0, [] => Nat.le_refl _
  | _ + 1, [] => Nat.le_refl _
  | skip + 1, _ :: rest => Nat.succ_le_succ (wordFrom_le skip rest)
  | 0, b :: rest => by
    unfold wordFrom
    split_ifs
    · exact Nat.succ_le_succ (wordFrom_le 0 rest)
    · split
      next c width _ =>
        split_ifs
        · exact Nat.succ_le_succ (wordFrom_le (width - 1) rest)
        · exact Nat.zero_le _
      · exact Nat.zero_le _

theorem identifier_fits : ∀ bytes, Fits bytes (identifier? bytes)
  | [] => fits_none
  | _ :: rest =>
    fits_ite (fun _ => fits_some (Nat.succ_pos _) (Nat.succ_le_succ (wordFrom_le 0 rest))) fun _ => fits_none

theorem sigil_fits (sigil : UInt8) : ∀ bytes, Fits bytes (sigil? sigil bytes)
  | [] => fits_none
  | _ :: rest =>
    fits_ite (fun _ => fits_some (Nat.succ_pos _) (Nat.succ_le_succ (wordFrom_le 0 rest))) fun _ => fits_none

private theorem wildcard_fits (bytes : Bytes) : Fits bytes (wildcard? bytes) := by
  intro length found
  obtain ⟨n, name, found⟩ := Option.bind_eq_some_iff.mp found
  obtain ⟨_, least⟩ := sigil_fits 0x24 bytes n name
  split_ifs at found with star
  cases found
  have inside : bytes.drop n ≠ [] := fun none => by simp [none] at star
  exact ⟨Nat.succ_pos _, Nat.not_le.mp fun outside => inside (List.drop_eq_nil_of_le outside)⟩

private theorem float_fits (bytes : Bytes) : Fits bytes (float? bytes) := by
  intro length found
  obtain ⟨whole, digits, found⟩ := Option.bind_eq_some_iff.mp found
  split at found
  next rest behind =>
    obtain ⟨fraction, digits', found⟩ := Option.bind_eq_some_iff.mp found
    cases found
    have most := (run1_fits isDigit rest fraction digits').2
    have left := congrArg List.length behind
    simp only [List.length_drop, List.length_cons] at left
    omega
  · cases found

private theorem based_fits (mark : UInt8) (p : UInt8 → Bool) : ∀ bytes, Fits bytes (based? mark p bytes) := by
  intro bytes
  unfold based?
  split
  next m rest =>
    exact fits_ite (fun _ => fits_map [0x30, m] (fun n found => (run1_fits p rest n found).2) (List.cons_ne_nil _ _))
      fun _ => fits_none
  · exact fits_none

private theorem decimal_fits (units : Bool) (bytes : Bytes) : Fits bytes (decimal? units bytes) := by
  intro length found
  obtain ⟨n, digits, found⟩ := Option.bind_eq_some_iff.mp found
  obtain ⟨positive, most⟩ := run1_fits isDigit bytes n digits
  split at found
  next u rest behind =>
    have left := congrArg List.length behind
    simp only [List.length_drop, List.length_cons] at left
    split_ifs at found <;> cases found <;> omega
  · cases found
    exact ⟨positive, most⟩

private theorem fits_or {first second : Option Nat} (one : Fits bytes first) (two : Fits bytes second) :
    Fits bytes (first.or second) := by
  cases first with
  | none => exact two
  | some n => exact one

private theorem integer_fits (units : Bool) (bytes : Bytes) : Fits bytes (integer? units bytes) :=
  fits_or (based_fits _ _ bytes) (fits_or (based_fits _ _ bytes) (decimal_fits units bytes))

theorem stringFrom_le : ∀ (skip : Nat) (bytes : Bytes)
    (length : Nat), stringFrom skip bytes = some length → length ≤ bytes.length
  | 0, [], _, found => by cases found
  | _ + 1, [], _, found => by cases found
  | skip + 1, _ :: rest, length, found => by
    obtain ⟨n, inside, rfl⟩ := Option.map_eq_some_iff.mp found
    exact Nat.succ_le_succ (stringFrom_le skip rest n inside)
  | 0, b :: rest, length, found => by
    have more {skip : Nat} (found : (stringFrom skip rest).map (· + 1) = some length) :
        length ≤ (b :: rest).length := by
      obtain ⟨n, inside, rfl⟩ := Option.map_eq_some_iff.mp found
      exact Nat.succ_le_succ (stringFrom_le skip rest n inside)
    unfold stringFrom at found
    split_ifs at found
    · cases found
      simp
    · split at found
      · split_ifs at found
        exact more found
      · cases found
    · exact more found

private theorem string_fits : ∀ bytes, Fits bytes (string? bytes) := by
  intro bytes
  unfold string?
  split
  next rest => exact fits_map [0x22] (stringFrom_le 0 rest) (List.cons_ne_nil _ _)
  · exact fits_none

private theorem regexpFrom_le : ∀ (bytes : Bytes) (s : RegexpState) (before : Nat) (best : Option Nat) (length : Nat),
    (∀ n, best = some n → 0 < n ∧ n ≤ before) → regexpFrom s before best bytes = some length → 0 < length ∧
    length ≤ before + bytes.length
  | [], _, _, _, length, known, found => known length found
  | b :: rest, s, before, best, length, known, found => by
    have more {s : RegexpState} {best : Option Nat} (known : ∀ n, best = some n → 0 < n ∧ n ≤ before + 1)
        (found : regexpFrom s (before + 1) best rest = some length) : 0 < length ∧ length ≤ before +
          (b :: rest).length := by
      obtain ⟨positive, most⟩ := regexpFrom_le rest s (before + 1) best length known found
      simp only [List.length_cons]
      omega
    unfold regexpFrom at found
    dsimp only at found
    split_ifs at found
    · obtain ⟨positive, most⟩ := known length found
      exact ⟨positive, Nat.le_trans most (Nat.le_add_right _ _)⟩
    · refine more (fun n better => ?_) found
      cases better
      omega
    · exact more (fun _ better => by cases better) found
    · refine more (fun n better => ?_) found
      obtain ⟨positive, most⟩ := known n better
      exact ⟨positive, Nat.le_succ_of_le most⟩

private theorem regexp_fits : ∀ bytes, Fits bytes (regexp? bytes) := by
  intro bytes
  unfold regexp?
  split
  next b rest =>
    have more (s : RegexpState) : Fits (0x2F :: b :: rest) (regexpFrom s 2 none rest) := fun length found => by
      obtain ⟨positive, most⟩ := regexpFrom_le rest s 2 none length nofun found
      simp only [List.length_cons]
      omega
    exact fits_ite (fun _ => fits_none) fun _ => fits_ite (fun _ => more _) fun _ => fits_ite (fun _ => more _)
      fun _ => fits_none
  · exact fits_none

private theorem blockFrom_le (pairs : Bool) : ∀ (star : Bool) (bytes : Bytes)
    (length : Nat), blockFrom pairs star bytes = some length →
    length ≤ bytes.length
  | _, [], _, found => by cases found
  | star, b :: rest, length, found => by
    have more {star : Bool} (found : (blockFrom pairs star rest).map (· + 1) = some length) :
        length ≤ (b :: rest).length := by
      obtain ⟨n, inside, rfl⟩ := Option.map_eq_some_iff.mp found
      exact Nat.succ_le_succ (blockFrom_le pairs star rest n inside)
    unfold blockFrom at found
    split_ifs at found
    · cases found
      simp
    · exact more found
    · exact more found
    · exact more found

private theorem blockComment_fits (pairs : Bool) : ∀ bytes, Fits bytes (blockComment? pairs bytes) := by
  intro bytes
  unfold blockComment?
  split
  next rest => exact fits_map [0x2F, 0x2A] (blockFrom_le pairs false rest) (List.cons_ne_nil _ _)
  · exact fits_none

private theorem lineComment_fits : ∀ bytes, Fits bytes (lineComment? bytes) := by
  intro bytes
  unfold lineComment?
  split
  next rest =>
    have most := run_le (fun b => b != 0x0A && b != 0x0D) rest
    exact fits_some (Nat.succ_pos _) (by simp only [List.length_cons]; omega)
  · exact fits_none

private theorem newLine_fits : ∀ bytes, Fits bytes (newLine? bytes) := by
  intro bytes
  unfold newLine?
  split
  · exact fits_some (by decide) (by simp)
  · exact fits_some (by decide) (by simp)
  · exact fits_some (by decide) (by simp)
  · exact fits_none

private theorem hexByte_fits : ∀ bytes, Fits bytes (hexByte? bytes) := by
  intro bytes
  unfold hexByte?
  split
  · exact fits_ite (fun _ => fits_some (by decide) (by simp)) fun _ => fits_none
  · exact fits_ite (fun _ => fits_some (by decide) (by simp)) fun _ => fits_none
  · exact fits_none

theorem fixedTexts_some : ∀ entry ∈ fixedTexts, entry.1 ≠ [] := by decide +kernel

/-- Whatever is found in any mode takes some of the bytes. -/
theorem candidates_fit (mode : Mode) (bytes : Bytes) : ∀ candidate ∈ candidates mode bytes, Fits bytes candidate.2 := by
  cases mode with
  | normal =>
    refine List.forall_mem_append.mpr ⟨fun candidate fixed => ?_, ?_⟩
    · obtain ⟨⟨text, kind⟩, listed, rfl⟩ := List.mem_map.mp fixed
      exact fixed_fits (fixedTexts_some _ listed) bytes
    · simp only [List.forall_mem_cons]
      exact ⟨sigil_fits _ _, wildcard_fits _, sigil_fits _ _, sigil_fits _ _, sigil_fits _ _, identifier_fits _,
        float_fits _, integer_fits _ _, string_fits _, regexp_fits _, blockComment_fits _ _, lineComment_fits _,
        run1_fits _ _, newLine_fits _, nofun⟩
  | hexPattern =>
    simp only [candidates, List.forall_mem_cons]
    exact ⟨hexByte_fits _, fixed_fits (by simp) _, fixed_fits (by simp) _, fixed_fits (by simp) _,
      fixed_fits (by simp) _, fixed_fits (by simp) _, run1_fits _ _, newLine_fits _, blockComment_fits _ _,
      lineComment_fits _, nofun⟩
  | hexJump =>
    simp only [candidates, List.forall_mem_cons]
    exact ⟨fixed_fits (by simp) _, integer_fits _ _, fixed_fits (by simp) _, run1_fits _ _, newLine_fits _, nofun⟩

/-! ### Bytes of a kind -/

/-- What is known of bytes from what was found in them. -/
def Shaped : Lexeme → Bytes → Prop
  | .blank, bytes => ∀ b ∈ bytes, b = 0x20 ∨ b = 0x09
  | .token .string, bytes => ∃ inner, bytes = 0x22 :: inner ++ [0x22]
  | .token .boolean, bytes => bytes = Bytes.ofText "true" ∨ bytes = Bytes.ofText "false"
  | .token .stringName, bytes => bytes.head? = some 0x24
  | .token .stringCount, bytes => bytes.head? = some 0x23
  | .token .stringOffset, bytes => bytes.head? = some 0x40
  | .token .stringLength, bytes => bytes.head? = some 0x21
  | .token _, _ => True

private theorem fixedKinds_shaped : ∀ kind ∈ fixedKinds, ∀ bytes, Shaped (.token kind) bytes := by
  simp [fixedKinds, Shaped]

private theorem fixedTexts_shaped : ∀ entry ∈ fixedTexts, Shaped (.token entry.2) entry.1 := by
  refine List.forall_mem_cons.mpr ⟨.inl rfl, List.forall_mem_cons.mpr ⟨.inr rfl, fun entry member => ?_⟩⟩
  obtain ⟨kind, listed, rfl⟩ := List.mem_map.mp member
  exact fixedKinds_shaped kind listed _

theorem fixed_taken {text : Bytes} (found : fixed? text bytes = some length) : bytes.take length = text := by
  unfold fixed? at found
  split_ifs at found with starts
  cases found
  exact (List.prefix_iff_eq_take.mp (List.isPrefixOf_iff_prefix.mp starts)).symm

theorem run1_taken {p : UInt8 → Bool} (found : run1? p bytes = some length) : ∀ b ∈ bytes.take length, p b := by
  unfold run1? at found
  split at found
  · cases found
  · cases found
    rw [run, ← List.prefix_iff_eq_take.mp (List.takeWhile_prefix p)]
    exact fun b member => List.all_eq_true.mp List.all_takeWhile b member

theorem run1_all {p : UInt8 → Bool} (found : run1? p bytes = some length) :
    bytes.take length ≠ [] ∧ ∀ b ∈ bytes.take length, p b = true := by
  obtain ⟨positive, enough⟩ := run1_fits p bytes length found
  refine ⟨fun none => ?_, run1_taken found⟩
  have size := congrArg List.length none
  rw [List.length_take, List.length_nil] at size
  omega

/-- A number in another base is its mark and digits of that base. -/
theorem based_all {mark : UInt8} {p : UInt8 → Bool} (found : based? mark p bytes = some length) :
    ∃ digits, bytes.take length = 0x30 :: mark :: digits ∧ digits ≠ [] ∧ ∀ b ∈ digits, p b = true := by
  unfold based? at found
  split at found
  next m rest =>
    split_ifs at found with same
    obtain ⟨n, run, rfl⟩ := Option.map_eq_some_iff.mp found
    exact ⟨rest.take n, by rw [beq_iff_eq.mp same]; rfl, run1_all run⟩
  next => cases found

private theorem sigil_head {sigil : UInt8} (found : sigil? sigil bytes = some length) :
    (bytes.take length).head? = some sigil := by
  cases bytes with
  | nil => cases found
  | cons b rest =>
    simp only [sigil?] at found
    split_ifs at found with same
    cases found
    simpa using same

theorem stringFrom_closed : ∀ (skip : Nat) (bytes : Bytes) (length : Nat), stringFrom skip bytes = some length →
    ∃ inner, bytes.take length = inner ++ [0x22]
  | 0, [], _, found => by cases found
  | _ + 1, [], _, found => by cases found
  | skip + 1, b :: rest, length, found => by
    obtain ⟨n, inside, rfl⟩ := Option.map_eq_some_iff.mp found
    obtain ⟨inner, taken⟩ := stringFrom_closed skip rest n inside
    exact ⟨b :: inner, congrArg (b :: ·) taken⟩
  | 0, b :: rest, length, found => by
    have more {skip : Nat} (found : (stringFrom skip rest).map (· + 1) = some length) :
        ∃ inner, (b :: rest).take length = inner ++ [0x22] := by
      obtain ⟨n, inside, rfl⟩ := Option.map_eq_some_iff.mp found
      obtain ⟨inner, taken⟩ := stringFrom_closed skip rest n inside
      exact ⟨b :: inner, congrArg (b :: ·) taken⟩
    unfold stringFrom at found
    split_ifs at found with quote
    · cases found
      exact ⟨[], by simpa using quote⟩
    · split at found
      · split_ifs at found
        exact more found
      · cases found
    · exact more found

theorem string_quoted (found : string? bytes = some length) : ∃ inner, bytes.take length = 0x22 :: inner ++ [0x22] := by
  unfold string? at found
  split at found
  next rest =>
    obtain ⟨n, inside, rfl⟩ := Option.map_eq_some_iff.mp found
    obtain ⟨inner, taken⟩ := stringFrom_closed 0 rest n inside
    exact ⟨inner, congrArg (0x22 :: ·) taken⟩
  · cases found

private theorem blanks_taken (found : blanks? bytes = some length) : ∀ b ∈ bytes.take length, b = 0x20 ∨ b = 0x09 :=
  fun b member => by simpa using run1_taken found b member

/-- Whatever is found in any mode is made of bytes of its kind. -/
theorem candidates_shaped (mode : Mode) (bytes : Bytes) : ∀ candidate ∈ candidates mode bytes, ∀ length,
    candidate.2 = some length → Shaped candidate.1 (bytes.take length) := by
  cases mode with
  | normal =>
    refine List.forall_mem_append.mpr ⟨fun candidate fixed length found => ?_, ?_⟩
    · obtain ⟨⟨text, kind⟩, listed, rfl⟩ := List.mem_map.mp fixed
      rw [fixed_taken found]
      exact fixedTexts_shaped _ listed
    · simp only [List.forall_mem_cons]
      exact ⟨fun _ => sigil_head, fun _ _ => trivial, fun _ => sigil_head, fun _ => sigil_head, fun _ =>
        sigil_head, fun _ _ => trivial, fun _ _ => trivial, fun _ _ => trivial, fun _ => string_quoted,
        fun _ _ => trivial, fun _ _ => trivial, fun _ _ => trivial, fun _ => blanks_taken, fun _ _ => trivial, nofun⟩
  | hexPattern =>
    simp only [candidates, List.forall_mem_cons]
    exact ⟨fun _ _ => trivial, fun _ _ => trivial, fun _ _ => trivial, fun _ _ => trivial, fun _ _ => trivial,
      fun _ _ => trivial, fun _ => blanks_taken, fun _ _ => trivial, fun _ _ => trivial, fun _ _ => trivial, nofun⟩
  | hexJump =>
    simp only [candidates, List.forall_mem_cons]
    exact ⟨fun _ _ => trivial, fun _ _ => trivial, fun _ _ => trivial, fun _ => blanks_taken, fun _ _ => trivial, nofun⟩

end YaraRules.Lexer
