import YaraRules.Proofs.EscapedTexts
import YaraRules.Proofs.LexerWords

/-! Regular expressions that are read back as one word. The lexer ends a regular expression at
the first slash that no backslash stands before, takes two letters behind it at most, and
does not go on behind a line feed; its first character has a rule of its own. -/

namespace YaraRules

namespace Lexer

/-- Characters behind the first one. A backslash takes the next character with it. -/
inductive Body : List Char → Prop
  | nil : Body []
  | escaped {c : Char} {rest : List Char} : c ≠ '\n' → Body rest → Body ('\\' :: c :: rest)
  | plain {c : Char} {rest : List Char} : c ≠ '\\' → c ≠ '/' → c ≠ '\n' → Body rest → Body (c :: rest)

/-- Characters between the slashes. The first one may also be a line feed, or a backslash that
takes nothing with it, but it begins no comment. -/
inductive Content : List Char → Prop
  | escaped {c : Char} {rest : List Char} : c ≠ '\n' → Body rest → Content ('\\' :: c :: rest)
  | first {c : Char} {rest : List Char} : c ≠ '*' → c ≠ '/' → Body rest → Content (c :: rest)

/-- Letters that may stand behind the second slash. -/
def Short (letters : List Char) : Prop := letters.length ≤ 2 ∧ letters.all (·.isAlpha) = true

instance (letters : List Char) : Decidable (Short letters) := inferInstanceAs (Decidable (_ ∧ _))

/-- What is left closes the regular expression. With `escaped` a backslash stands before it. -/
def closes (escaped : Bool) : List Char → Bool
  | [] => false
  | c :: rest =>
    if escaped then c != '\n' && closes false rest
    else if c == '/' then Short rest
    else if c == '\\' then closes true rest
    else c != '\n' && closes false rest

/-- What is left after the first slash is a body with the second slash and letters. -/
def encloses : List Char → Bool
  | [] => false
  | c :: rest => c != '*' && c != '/' && (closes false rest || c == '\\' && closes true rest)

variable {c : Char} {cs : List Char} {rest : Bytes}

private theorem closes_escaped : closes true cs = true ↔ ∃ c rest, cs = c :: rest ∧ c ≠ '\n' ∧
    closes false rest = true := by
  cases cs with
  | nil => simp [closes]
  | cons c rest => simp [closes]

/-- What closes a regular expression is a body, the slash and letters behind it. -/
theorem body_of_closes : ∀ cs : List Char, closes false cs = true →
    ∃ body letters, cs = body ++ '/' :: letters ∧ Body body ∧ Short letters
  | [], closed => nomatch closed
  | c :: rest, closed => by
    simp only [closes, Bool.false_eq_true, if_false] at closed
    split at closed
    next slash => exact ⟨[], rest, by rw [beq_iff_eq.mp slash]; rfl, .nil, of_decide_eq_true closed⟩
    next slash =>
      split at closed
      next backslash =>
        obtain ⟨e, behind, rfl, other, closed⟩ := closes_escaped.mp closed
        obtain ⟨body, letters, rfl, valid, short⟩ := body_of_closes behind closed
        exact ⟨c :: e :: body, letters, rfl, by rw [beq_iff_eq.mp backslash]; exact .escaped other valid, short⟩
      next backslash =>
        obtain ⟨other, closed⟩ := Bool.and_eq_true_iff.mp closed
        obtain ⟨body, letters, rfl, valid, short⟩ := body_of_closes rest closed
        exact ⟨c :: body, letters, rfl, .plain (by simpa using backslash) (by simpa using slash)
          (bne_iff_ne.mp other) valid, short⟩

private theorem closes_of_body {body letters : List Char} (valid : Body body) (short : Short letters) :
    closes false (body ++ '/' :: letters) = true := by
  induction valid with
  | nil => simp [closes, short]
  | escaped other _ ih => simpa [closes, other] using ih
  | plain backslash slash other _ ih => simpa [closes, backslash, slash, other] using ih

theorem encloses_iff : encloses cs = true ↔ ∃ content letters, cs = content ++ '/' :: letters ∧ Content content ∧
    Short letters := by
  constructor
  · intro closed
    cases cs with
    | nil => cases closed
    | cons c rest =>
      simp only [encloses, Bool.and_eq_true, Bool.or_eq_true, bne_iff_ne, beq_iff_eq] at closed
      obtain ⟨⟨star, slash⟩, closed | ⟨rfl, closed⟩⟩ := closed
      · obtain ⟨body, letters, rfl, valid, short⟩ := body_of_closes rest closed
        exact ⟨c :: body, letters, rfl, .first star slash valid, short⟩
      · obtain ⟨e, behind, rfl, other, closed⟩ := closes_escaped.mp closed
        obtain ⟨body, letters, rfl, valid, short⟩ := body_of_closes behind closed
        exact ⟨'\\' :: e :: body, letters, rfl, .escaped other valid, short⟩
  · rintro ⟨_, letters, rfl, valid, short⟩
    cases valid with
    | escaped other valid => simp [encloses, closes_escaped, other, closes_of_body valid short]
    | first star slash valid => simp [encloses, star, slash, closes_of_body valid short]

/-! ### Characters and their bytes -/

/-- The bytes that a regular expression looks at stand for characters of their own. -/
structure Marks (b : UInt8) (c : Char) : Prop where
  backslash : (b == 0x5C) = (c == '\\')
  slash : (b == 0x2F) = (c == '/')
  feed : (b == 0x0A) = (c == '\n')
  star : (b == 0x2A) = (c == '*')
  letter : isAlpha b = c.isAlpha

theorem marks_ascii : ∀ n < 128, String.utf8EncodeChar (Char.ofNat n) = [UInt8.ofNat n] ∧
    ((UInt8.ofNat n == 0x5C) = (Char.ofNat n == '\\') ∧ (UInt8.ofNat n == 0x2F) = (Char.ofNat n == '/') ∧
      (UInt8.ofNat n == 0x0A) = (Char.ofNat n == '\n') ∧ (UInt8.ofNat n == 0x2A) = (Char.ofNat n == '*') ∧
      isAlpha (UInt8.ofNat n) = (Char.ofNat n).isAlpha) := by
  decide +kernel

/-- A byte from 128 on is none that a regular expression looks at. -/
theorem byte_high {b : UInt8} (high : 128 ≤ b.toNat) : (b == 0x5C) = false ∧ (b == 0x2F) = false ∧ (b == 0x0A) = false ∧
    (b == 0x2A) = false ∧ isAlpha b = false := by
  have known : ∀ n < 256, 128 ≤ n → (UInt8.ofNat n == 0x5C) = false ∧ (UInt8.ofNat n == 0x2F) = false ∧
    (UInt8.ofNat n == 0x0A) = false ∧
      (UInt8.ofNat n == 0x2A) = false ∧ isAlpha (UInt8.ofNat n) = false := by decide +kernel
  have here := known b.toNat b.toNat_lt high
  rwa [UInt8.ofNat_toNat] at here

private theorem char_high (high : 128 ≤ c.toNat) : (c == '\\') = false ∧ (c == '/') = false ∧ (c == '\n') = false ∧
    (c == '*') = false ∧ c.isAlpha = false := by
  have other {d : Char} (small : d.toNat < 128) : (c == d) = false := by
    refine beq_eq_false_iff_ne.mpr ?_
    rintro rfl
    omega
  refine ⟨other (by decide), other (by decide), other (by decide), other (by decide), ?_⟩
  have large : 128 ≤ c.val.toNat := high
  have upper : 'Z'.val.toNat = 90 := rfl
  have lower : 'z'.val.toNat = 122 := rfl
  delta Char.isAlpha Char.isUpper Char.isLower
  simp only [Bool.or_eq_false_iff, Bool.and_eq_false_iff, decide_eq_false_iff_not, ge_iff_le, UInt32.le_iff_toNat_le]
  omega

/-- The first byte of a character tells all that a regular expression asks for. -/
theorem char_marks (c : Char) : ∃ b tail, String.utf8EncodeChar c = b :: tail ∧ Marks b c ∧
    (∀ t ∈ tail, 128 ≤ t.toNat) ∧ (tail ≠ [] → 128 ≤ c.toNat) := by
  by_cases ascii : c.toNat < 128
  · obtain ⟨bytes, backslash, slash, feed, star, letter⟩ := marks_ascii c.toNat ascii
    rw [Char.ofNat_toNat] at bytes backslash slash feed star letter
    exact ⟨_, [], bytes, ⟨backslash, slash, feed, star, letter⟩, nofun, fun some => absurd rfl some⟩
  · have high : 128 ≤ c.toNat := Nat.le_of_not_lt ascii
    have some : String.utf8EncodeChar c ≠ [] := List.length_pos_iff.mp (String.length_utf8EncodeChar c ▸ c.utf8Size_pos)
    obtain ⟨b, tail, bytes⟩ := List.exists_cons_of_ne_nil some
    have large := Utf8.encodeChar_high high
    rw [bytes] at large
    obtain ⟨first, others⟩ := List.forall_mem_cons.mp large
    obtain ⟨backslash, slash, feed, star, letter⟩ := byte_high first
    obtain ⟨backslash', slash', feed', star', letter'⟩ := char_high high
    refine ⟨b, tail, bytes, ⟨?_, ?_, ?_, ?_, ?_⟩, others, fun _ => high⟩
    · rw [backslash, backslash']
    · rw [slash, slash']
    · rw [feed, feed']
    · rw [star, star']
    · rw [letter, letter']

/-! ### The steps of a regular expression -/

namespace RegexpState

/-- State after a whole character. -/
def after (s : RegexpState) (c : Char) : RegexpState where
  body := (s.body && c != '\\' && c != '/' && c != '\n') || (s.escape && c != '\n')
  escape := s.body && c == '\\'
  closed := if s.body && c == '/' then some 0 else s.closed.bind
    fun n => if n < 2 && c.isAlpha then some (n + 1) else none

/-- What is left closes the regular expression, or it is closed and letters are left. -/
def accepts (s : RegexpState) (cs : List Char) : Bool :=
  s.body && closes false cs || s.escape && closes true cs || s.closed.any
    fun n => decide (cs.length ≤ 2 - n) && cs.all (·.isAlpha)

private theorem step_marks (s : RegexpState) {b : UInt8} (marks : Marks b c) : s.step b (c != '\n') = s.after c := by
  obtain ⟨body, escape, closed⟩ := s
  cases closed <;>
    simp only [step, after, bne, marks.backslash, marks.slash, marks.feed, marks.letter, Option.bind_none,
      Option.bind_some]

private theorem accepts_dead {s : RegexpState} (dead : s.isDead = true) : s.accepts cs = false := by
  simp only [isDead, Bool.and_eq_true, Bool.not_eq_true', Option.isNone_iff_eq_none] at dead
  obtain ⟨⟨body, escape⟩, closed⟩ := dead
  simp [accepts, body, escape, closed]

theorem accepts_nil (s : RegexpState) : s.accepts [] = s.closed.isSome := by
  cases closed : s.closed <;> simp [accepts, closes, closed]

private theorem letters_cons (closed : Option Nat) (c : Char) (cs : List Char) :
    (closed.any fun n => decide ((c :: cs).length ≤ 2 - n) && (c :: cs).all (·.isAlpha)) =
      ((closed.bind fun n => if n < 2 && c.isAlpha then some (n + 1) else none).any fun n =>
        decide (cs.length ≤ 2 - n) && cs.all (·.isAlpha)) := by
  cases closed with
  | none => rfl
  | some n =>
    rw [Option.any_some, Option.bind_some, List.length_cons, List.all_cons]
    by_cases early : n < 2
    · have same : decide (cs.length + 1 ≤ 2 - n) = decide (cs.length ≤ 2 - (n + 1)) := decide_eq_decide.mpr (by omega)
      rw [same, decide_eq_true early, Bool.true_and]
      cases c.isAlpha
      · rw [Bool.false_and, Bool.and_false]
        rfl
      · rw [Bool.true_and, if_pos rfl, Option.any_some]
    · rw [decide_eq_false (show ¬cs.length + 1 ≤ 2 - n by omega), decide_eq_false early]
      rfl

private theorem short_eq (cs : List Char) : decide (Short cs) = (decide (cs.length ≤ 2 - 0) && cs.all (·.isAlpha)) := by
  rw [Bool.eq_iff_iff]
  simp [Short]

theorem accepts_cons (s : RegexpState) (c : Char) (cs : List Char) : s.accepts (c :: cs) = (s.after c).accepts cs := by
  rw [accepts, accepts, letters_cons]
  by_cases slash : c = '/'
  · subst slash
    have none : (s.closed.bind fun n => if n < 2 && '/'.isAlpha then some (n + 1) else .none) = .none := by
      cases s.closed <;> simp
    rw [none]
    simp only [after, closes, short_eq]
    cases s.body <;> cases s.escape <;> simp [Bool.or_comm]
  · have other : (c == '/') = false := beq_eq_false_iff_ne.mpr slash
    simp only [after, closes, other, Bool.and_false, Bool.false_eq_true, if_false, if_true]
    by_cases backslash : c = '\\'
    · subst backslash
      cases s.body <;> cases s.escape <;> simp [Bool.or_comm]
    · have plain : (c == '\\') = false := beq_eq_false_iff_ne.mpr backslash
      cases s.body <;> cases s.escape <;> cases feed : c == '\n' <;> simp [bne, other, plain, feed]

end RegexpState

/-- Bytes of one character leave the body as it is. -/
theorem regexpFrom_tail (rest : Bytes) : ∀ (tail : Bytes) (n : Nat), (∀ t ∈ tail, 128 ≤ t.toNat) →
    regexpFrom { body := true } n none (tail ++ rest) = regexpFrom { body := true } (n + tail.length) none rest
  | [], _, _ => rfl
  | t :: tail, n, high => by
    obtain ⟨first, others⟩ := List.forall_mem_cons.mp high
    obtain ⟨backslash, slash, feed, _, _⟩ := byte_high first
    have step (whole : Bool) : RegexpState.step { body := true } t whole = { body := true } := by
      simp [RegexpState.step, bne, backslash, slash, feed]
    rw [List.cons_append, regexpFrom]
    simp only [step]
    rw [List.length_cons, Nat.add_comm tail.length, ← Nat.add_assoc, ← regexpFrom_tail rest tail (n + 1) others]
    rfl

theorem regexpFrom_char (s : RegexpState) (n : Nat) (best : Option Nat) (c : Char) (rest : Bytes) :
    regexpFrom s n best (String.utf8EncodeChar c ++ rest) =
      if (s.after c).isDead then best
      else regexpFrom (s.after c) (n + (String.utf8EncodeChar c).length)
        (if (s.after c).closed.isSome then some (n + (String.utf8EncodeChar c).length) else if
        (s.after c).body then none else best) rest := by
  obtain ⟨b, tail, bytes, marks, high, several⟩ := char_marks c
  have read := Utf8.first?_encode c rest
  rw [bytes, List.cons_append] at read
  rw [bytes, List.cons_append, regexpFrom, read]
  simp only [s.step_marks marks]
  cases tail with
  | nil => rfl
  | cons t tail =>
    -- A character of several bytes only goes on with the body.
    obtain ⟨backslash, slash, _, _, letter⟩ := char_high (several (by simp))
    have shape : s.after c = { body := (s.after c).body } := by
      have closed : (s.after c).closed = none := by
        simp only [RegexpState.after, slash, letter, Bool.and_false, Bool.false_eq_true, if_false]
        cases s.closed <;> rfl
      rw [← closed]
      simp [RegexpState.after, backslash]
    cases body : (s.after c).body with
    | false =>
      rw [shape, body]
      rfl
    | true =>
      rw [shape, body]
      exact (regexpFrom_tail rest (t :: tail) (n + 1) high).trans
        (by rw [List.length_cons, List.length_cons (a := b), Nat.add_right_comm]; rfl)

private theorem regexpFrom_whole : ∀ (cs : List Char) (s : RegexpState) (n : Nat) (best : Option Nat),
    (best = some n ↔ s.closed.isSome = true) → (∀ m ∈ best, m ≤ n) →
    (regexpFrom s n best (Utf8.encode cs) = some (n + (Utf8.encode cs).length) ↔ s.accepts cs = true)
  | [], s, n, best, here, _ => by
    rw [s.accepts_nil]
    exact here
  | c :: cs, s, n, best, here, most => by
    have split : Utf8.encode (c :: cs) = String.utf8EncodeChar c ++ Utf8.encode cs := List.flatMap_cons
    have some : 0 < (String.utf8EncodeChar c).length := String.length_utf8EncodeChar c ▸ c.utf8Size_pos
    have before (m : Nat) : best ≠ Option.some (n + (String.utf8EncodeChar c).length + m) := fun same => by
      have := most _ same
      omega
    rw [split, regexpFrom_char, s.accepts_cons, List.length_append, ← Nat.add_assoc]
    by_cases dead : (s.after c).isDead = true
    · rw [if_pos dead, RegexpState.accepts_dead dead]
      exact ⟨fun same => absurd same (before _), nofun⟩
    · rw [if_neg dead]
      refine regexpFrom_whole cs (s.after c) _ _ ?_ ?_
      · have other := before 0
        split_ifs with closed body
        · simp [closed]
        · simp [closed]
        · simpa [closed] using other
      · intro m found
        split_ifs at found with closed body
        · cases found
          exact Nat.le_refl _
        · cases found
        · exact Nat.le_trans (most m found) (Nat.le_add_right _ _)

/-- The first character. Behind a backslash the reading goes on in both ways. -/
theorem regexp_first (c : Char) (rest : Bytes) :
    regexp? (0x2F :: (String.utf8EncodeChar c ++ rest)) = if c == '*' ||
    c == '/' then none else regexpFrom { body := true, escape := c == '\\' }
    (1 + (String.utf8EncodeChar c).length) none rest := by
  obtain ⟨b, tail, bytes, marks, high, several⟩ := char_marks c
  have read := Utf8.first?_encode c rest
  rw [bytes, List.cons_append] at read
  rw [bytes, List.cons_append, regexp?, marks.star, marks.slash, marks.backslash, read]
  refine if_congr Iff.rfl rfl ?_
  by_cases backslash : (c == '\\') = true
  · obtain rfl : tail = [] := by
      by_contra long
      rw [(char_high (several long)).1] at backslash
      cases backslash
    rw [if_pos backslash, backslash]
    rfl
  · rw [if_neg backslash, Option.isSome_some, if_pos rfl, regexpFrom_tail _ _ _ high, Bool.eq_false_iff.mpr backslash]
    congr 1
    simp; omega

/-- All the bytes after the first slash are part of the regular expression if they close it. -/
theorem regexp_whole : regexp? (0x2F :: Utf8.encode cs) = some (1 + (Utf8.encode cs).length) ↔ encloses cs = true := by
  cases cs with
  | nil => simp [regexp?, Utf8.encode, encloses]
  | cons c cs =>
    have split : Utf8.encode (c :: cs) = String.utf8EncodeChar c ++ Utf8.encode cs := List.flatMap_cons
    have whole := regexpFrom_whole cs { body := true, escape := c == '\\' } (1 + (String.utf8EncodeChar c).length) none
      (by simp) (by simp)
    rw [split, regexp_first, encloses]
    by_cases comment : (c == '*' || c == '/') = true
    · have none : (c != '*' && c != '/') = false := by simpa [bne, ← Bool.not_or] using comment
      rw [if_pos comment, none]
      simp
    · have some : (c != '*' && c != '/') = true := by simpa [bne, ← Bool.not_or] using comment
      rw [if_neg comment, some, Bool.true_and]
      simpa [RegexpState.accepts, ← Nat.add_assoc] using whole

/-! ### One word -/

/-- A candidate that is longer than all before it. -/
theorem longest_later {front back : List (Lexeme × Option Nat)} {lexeme : Lexeme} {length : Nat}
    (last : longest back = some (lexeme, length)) (shorter : ∀ candidate ∈ front, ∀ n ∈ candidate.2,
    n < length) : longest (front ++ back) = some (lexeme, length) := by
  induction front with
  | nil => exact last
  | cons candidate front ih =>
    obtain ⟨here, others⟩ := List.forall_mem_cons.mp shorter
    obtain ⟨other, n⟩ := candidate
    cases n with
    | none => exact ih others
    | some n =>
      have less : n < length := here n rfl
      rw [List.cons_append, longest, ih others]
      simp only [less, if_true]

/-- The slash alone is the only other word that begins with a slash. -/
theorem fixeds_slash (bytes : Bytes) : ∀ candidate ∈ fixeds (0x2F :: bytes), ∀ n ∈ candidate.2, n ≤ 1 := by
  have sole : fixedTexts.all fun entry => entry.1.head? != some 0x2F || entry.1 == [0x2F] := by decide +kernel
  have short : (fixeds [0x2F]).all fun candidate => candidate.2.all fun n => decide (n ≤ 1) := by decide +kernel
  have same : fixeds (0x2F :: bytes) = fixeds [0x2F] := fixeds_sole (fun entry listed head => by
    simpa [head] using List.all_eq_true.mp sole entry listed) bytes
  intro candidate member n found
  rw [same] at member
  have known := List.all_eq_true.mp short candidate member
  simpa [Option.mem_def.mp found] using known

private theorem lexeme_of_regexp {bytes : Bytes} {length : Nat} (found : regexp? (0x2F :: bytes) = some length)
    (more : 1 < length) : lexeme? .normal (0x2F :: bytes) = some (.token .regexp, length) := by
  obtain ⟨b, behind, rfl, star, slash⟩ : ∃ b behind, bytes = b :: behind ∧ b ≠ 0x2A ∧ b ≠ 0x2F := by
    cases bytes with
    | nil => simp [regexp?] at found
    | cons b behind =>
      refine ⟨b, behind, rfl, ?_, ?_⟩
      all_goals
        rintro rfl
        simp [regexp?] at found
  have block : blockComment? false (0x2F :: b :: behind) = none := by
    rw [blockComment?]
    simp [star]
  have line : lineComment? (0x2F :: b :: behind) = none := by
    rw [lineComment?]
    simp [slash]
  obtain ⟨float, integer⟩ := @number_lead (b :: behind) 0x2F rfl
  rw [lexeme_eq]
  refine longest_later ?_ fun candidate member n here =>
    Nat.lt_of_le_of_lt (fixeds_slash _ candidate member n here) more
  simp only [classes, wildcard?, sigil?, float, integer, string_lead (show (0x2F : UInt8) ≠ 0x22 by decide), found,
    block, line, blanks_lead (show isWhite 0x2F = false from rfl), newLine_lead (show isWhite 0x2F = false from rfl),
    identifier_lead (show (isAlpha 0x2F || 0x2F == 0x5F) = false from rfl)]
  rfl

theorem lexeme_regexp : lexeme? .normal (0x2F :: Utf8.encode cs) = some (.token .regexp, 1 + (Utf8.encode cs).length) ↔
    encloses cs = true := by
  rw [← regexp_whole]
  constructor
  · intro found
    simpa [classes, eq_comm] using class_of_lexeme found (by decide)
  · intro found
    refine lexeme_of_regexp found ?_
    have some : Utf8.encode cs ≠ [] := fun none => by simp [none, regexp?] at found
    have positive := List.length_pos_iff.mpr some
    omega

/-! ### In front of other words -/

/-- The text is a regular expression that ends at its second slash and its letters, whatever follows. A content
of backslashes only does not do, since the first of them may stand for itself. -/
def Sealed (text : String) : Prop :=
  ∃ content letters, text.toList = '/' :: (content ++ '/' :: letters) ∧ Content content ∧ Short letters ∧ ∃ c ∈
    content, c ≠ '\\'

theorem encode_cons (c : Char) (cs : List Char) (rest : Bytes) :
    Utf8.encode (c :: cs) ++ rest = String.utf8EncodeChar c ++ (Utf8.encode cs ++ rest) := by
  rw [Utf8.encode_char, List.append_assoc]

private theorem length_encode_cons (c : Char) (cs : List Char) :
    (Utf8.encode (c :: cs)).length = (String.utf8EncodeChar c).length + (Utf8.encode cs).length := by
  rw [Utf8.encode_char, List.length_append]

/-- The reading comes behind the characters, and stands between two characters of the body there. -/
def Crosses (s : RegexpState) (cs : List Char) (rest : Bytes) : Prop :=
  ∀ n best, ∃ s' best', s'.body = true ∧ s'.escape = false ∧
    regexpFrom s n best (Utf8.encode cs ++ rest) = regexpFrom s' (n + (Utf8.encode cs).length) best' rest

theorem Crosses.char {s : RegexpState} (alive : (s.after c).isDead = false) (later : Crosses (s.after c) cs rest) :
    Crosses s (c :: cs) rest := by
  intro n best
  obtain ⟨s', best', body, escape, run⟩ := later (n + (String.utf8EncodeChar c).length)
    (if (s.after c).closed.isSome then some (n + (String.utf8EncodeChar c).length) else if
      (s.after c).body then none else best)
  refine ⟨s', best', body, escape, ?_⟩
  rw [encode_cons, regexpFrom_char, alive, if_neg (by simp), run, length_encode_cons, Nat.add_assoc]

private theorem crosses_body (body : Body cs) :
    ∀ s : RegexpState, s.body = true → s.escape = false → Crosses s cs rest := by
  induction body with
  | nil => exact fun s body escape n best => ⟨s, best, body, escape, rfl⟩
  | @escaped c cs other _ ih =>
    intro s body escape
    have here : (s.after '\\').body = false ∧ (s.after '\\').escape = true := by simp [RegexpState.after, body, escape]
    have next : ((s.after '\\').after c).body = true ∧ ((s.after '\\').after c).escape = false := by
      constructor <;> simp [RegexpState.after, body, escape, other]
    exact .char (by simp [RegexpState.isDead, here]) (.char (by simp [RegexpState.isDead, next]) (ih _ next.1 next.2))
  | @plain c cs backslash slash feed _ ih =>
    intro s body escape
    have next : (s.after c).body = true ∧ (s.after c).escape = false := by
      constructor <;> simp [RegexpState.after, body, backslash, slash, feed]
    exact .char (by simp [RegexpState.isDead, next]) (ih _ next.1 next.2)

/-- Where the reading can stand at both ends of a backslash, it comes to one of them behind any other character. -/
theorem crosses_both : ∀ (cs : List Char) (s : RegexpState), s.body = true → s.escape = true →
    (Body cs ∨ ∃ c rest, cs = c :: rest ∧ c ≠ '\n' ∧ Body rest) → (∃ c ∈ cs, c ≠ '\\') → Crosses s cs rest
  | [], _, _, _, _, ⟨_, member, _⟩ => nomatch member
  | c :: cs, s, body, escape, valid, ⟨d, member, other⟩ => by
    by_cases backslash : c = '\\'
    · subst backslash
      have next : (s.after '\\').body = true ∧ (s.after '\\').escape = true := by
        constructor <;> simp [RegexpState.after, body, escape]
      refine .char (by simp [RegexpState.isDead, next]) (crosses_both cs _ next.1 next.2 ?_ ⟨d, ?_, other⟩)
      · rcases valid with valid | ⟨_, _, same, _, valid⟩
        · cases valid with
          | escaped feed valid => exact .inr ⟨_, _, rfl, feed, valid⟩
          | plain backslash _ _ _ => exact absurd rfl backslash
        · obtain ⟨rfl, rfl⟩ := List.cons.inj same
          exact .inl valid
      · exact (List.mem_cons.mp member).resolve_left other
    · have known : c ≠ '\n' ∧ Body cs := by
        rcases valid with valid | ⟨_, _, same, feed, valid⟩
        · cases valid with
          | escaped => exact absurd rfl backslash
          | plain _ _ feed valid => exact ⟨feed, valid⟩
        · obtain ⟨rfl, rfl⟩ := List.cons.inj same
          exact ⟨feed, valid⟩
      have next : (s.after c).body = true ∧ (s.after c).escape = false := by
        constructor <;> simp [RegexpState.after, body, escape, backslash, known.1]
      exact .char (by simp [RegexpState.isDead, next]) (crosses_body known.2 _ next.1 next.2)

/-- Letters behind the second slash are taken up to the first byte that is none. -/
theorem regexpFrom_letters (stops : ∀ b ∈ rest.head?, isAlpha b = false) :
    ∀ (letters : List Char) (k n : Nat), letters.length ≤ 2 - k →
    letters.all (·.isAlpha) = true → regexpFrom { closed := some k } n (some n)
    (Utf8.encode letters ++ rest) = some (n + (Utf8.encode letters).length)
  | [], k, n, _, _ => by
    cases rest with
    | nil => rfl
    | cons b more => simp [Utf8.encode, regexpFrom, RegexpState.step, RegexpState.isDead, stops b rfl]
  | c :: letters, k, n, most, all => by
    obtain ⟨here, later⟩ := Bool.and_eq_true_iff.mp (List.all_cons ▸ all)
    rw [List.length_cons] at most
    have below : k < 2 := by omega
    have next : RegexpState.after { closed := some k } c = { closed := some (k + 1) } := by
      simp only [RegexpState.after, Bool.false_and, Bool.or_false, Bool.false_eq_true, if_false, Option.bind_some, here,
        Bool.and_true, decide_eq_true_eq, if_pos below]
    rw [encode_cons, regexpFrom_char, next, length_encode_cons, ← Nat.add_assoc]
    exact regexpFrom_letters stops letters (k + 1) _ (by omega) later

private theorem crosses_content {cs : List Char} (valid : Content (c :: cs)) (other : ∃ d ∈ c :: cs, d ≠ '\\')
    (rest : Bytes) : (c == '*' || c == '/') = false ∧ Crosses { body := true, escape := c == '\\' } cs rest := by
  have behind (backslash : c = '\\') : ∃ d ∈ cs, d ≠ '\\' := by
    obtain ⟨d, member, other⟩ := other
    exact ⟨d, (List.mem_cons.mp member).resolve_left (backslash ▸ other), other⟩
  cases valid with
  | escaped feed valid => exact ⟨rfl, crosses_both _ _ rfl rfl (.inr ⟨_, _, rfl, feed, valid⟩) (behind rfl)⟩
  | first star slash valid =>
    refine ⟨by simp [star, slash], ?_⟩
    by_cases backslash : c = '\\'
    · exact crosses_both _ _ rfl (by simp [backslash]) (.inl valid) (behind backslash)
    · exact crosses_body valid _ rfl (by simp [backslash])

/-- A sealed regular expression is found in front of everything but a letter. -/
theorem lexeme_sealed {text : String} (sealed : Sealed text) (stops : ∀ b ∈ rest.head?, isAlpha b = false) :
    lexeme? .normal (Bytes.ofText text ++ rest) = some (.token .regexp, (Bytes.ofText text).length) := by
  obtain ⟨content, letters, whole, valid, ⟨most, all⟩, other⟩ := sealed
  obtain ⟨c, cs, rfl⟩ : ∃ c cs, content = c :: cs := by cases valid <;> exact ⟨_, _, rfl⟩
  have split : Utf8.encode (c :: cs ++ '/' :: letters) = String.utf8EncodeChar c ++
      (Utf8.encode cs ++ Utf8.encode ('/' :: letters)) := by
    simp [Utf8.encode]
  have bytes : Bytes.ofText text = 0x2F :: (String.utf8EncodeChar c ++
      (Utf8.encode cs ++ Utf8.encode ('/' :: letters))) := by
    rw [Bytes.ofText, whole, ← split]
    rfl
  obtain ⟨comment, crosses⟩ := crosses_content valid other (Utf8.encode ('/' :: letters) ++ rest)
  obtain ⟨s, best, body, escape, run⟩ := crosses (1 + (String.utf8EncodeChar c).length) none
  have closed : s.after '/' = { closed := some 0 } := by simp [RegexpState.after, body, escape]
  have found : regexp? (0x2F :: (String.utf8EncodeChar c ++
    (Utf8.encode cs ++ (Utf8.encode ('/' :: letters) ++ rest)))) =
      some (1 + (String.utf8EncodeChar c).length + (Utf8.encode cs).length + 1 + (Utf8.encode letters).length) := by
    rw [regexp_first, comment, if_neg (by simp), run, encode_cons, regexpFrom_char, closed]
    exact regexpFrom_letters stops letters 0 _ most all
  have length : (Bytes.ofText text).length = 1 + (String.utf8EncodeChar c).length + (Utf8.encode cs).length + 1 +
      (Utf8.encode letters).length := by
    rw [bytes]
    simp only [List.length_cons, List.length_append, length_encode_cons,
      show (String.utf8EncodeChar '/').length = 1 from rfl]
    omega
  rw [length, bytes, List.cons_append, List.append_assoc, List.append_assoc]
  exact lexeme_of_regexp found (by omega)

/-- The source is one token and nothing else. -/
def Alone (file : Option String) (source : Bytes) (token : Token) : Prop :=
  spans file source = .ok [⟨token, 0, source.length⟩]

private theorem lexemeOutwards_normal (bytes : Bytes) :
    lexemeOutwards .normal bytes = (.normal, lexeme? .normal bytes) := by
  unfold lexemeOutwards
  cases found : lexeme? .normal bytes with
  | none => simp [Mode.outer, found]
  | some => rfl

theorem lexeme_of_alone {file : Option String} {source : Bytes} {token : Token} (present : source ≠ [])
    (alone : Alone file source token) : lexeme? .normal source = some (.token token.kind, source.length) := by
  obtain ⟨b, more, bytes⟩ := List.exists_cons_of_ne_nil present
  unfold Alone spans at alone
  rw [show source.length = more.length + 1 by rw [bytes]; rfl, spansFrom, if_neg (by simp [bytes])] at alone
  cases taken : step file { rest := source } with
  | skipped s' =>
    -- The token would stand behind the blanks.
    obtain ⟨length, blank, rest⟩ := step_skipped taken
    have positive := blank.positive
    have most : length ≤ source.length := blank.most
    have left : s'.rest.length = source.length - length := by rw [rest, List.length_drop]
    have stop : 0 + (source.length - s'.rest.length) = length := by omega
    simp only [taken, stop] at alone
    have covers := spansFrom_covers file more.length length s' _ rest most
      (by rw [left, bytes, List.length_cons]; omega) alone
    have after : length ≤ 0 := covers.1.after
    omega
  | failed e => simp [taken] at alone
  | found token' s' =>
    have single : token' = token ∧ 0 + (source.length - s'.rest.length) = more.length + 1 := by
      simp only [taken] at alone
      cases later : spansFrom file more.length (0 + (source.length - s'.rest.length)) s' with
      | error e => simp only [later, bind, Except.bind] at alone; cases alone
      | ok others =>
        simp only [later, bind, Except.bind, pure, Except.pure] at alone
        obtain ⟨same, -⟩ := List.cons.inj (Except.ok.inj alone)
        exact ⟨congrArg Span.token same, congrArg Span.stop same⟩
    obtain ⟨rfl, whole⟩ := single
    simp only [step, lexemeOutwards_normal] at taken
    split at taken
    next => cases taken
    next mode kind length outwards =>
      obtain ⟨rfl, found⟩ := Prod.mk.inj outwards
      have known := lexeme_taken found
      have other : (kind == .openBrace && (none : Option TokenKind) == some .assign) = false := by simp
      simp only [other, Bool.false_eq_true, if_false] at taken
      split at taken
      next token'' made =>
        obtain ⟨rfl, rfl⟩ := Step.found.inj taken
        have left : (source.drop length).length = source.length - length := List.length_drop
        have most := known.most
        have all : length = source.length := by
          simp only [left] at whole
          rw [bytes, List.length_cons] at most whole ⊢
          omega
        rw [makeToken_kind made, found, all]
      next => cases taken
    next => cases taken

theorem alone_of_lexeme (file : Option String) {text : String} (found : lexeme? .normal (Bytes.ofText text) =
    some (.token .regexp, (Bytes.ofText text).length)) :
    ∃ token, Alone file (Bytes.ofText text) token ∧ token.kind = .regexp ∧ token.literal.text = text := by
  have positive := (lexeme_taken found).positive
  obtain ⟨n, more⟩ : ∃ n, (Bytes.ofText text).length = n + 1 := ⟨_, (Nat.succ_pred_eq_of_pos positive).symm⟩
  have present : (Bytes.ofText text).isEmpty = false := by
    cases bytes : Bytes.ofText text with
    | nil => simp [bytes] at more
    | cons => rfl
  obtain ⟨token, s', taken, kind, reads, rest⟩ : ∃ token s', step file { rest := Bytes.ofText text } = .found token s' ∧
      token.kind = .regexp ∧ token.literal.text = text ∧ s'.rest = [] := by
    rw [step]
    simp only [lexemeOutwards_normal, found]
    refine ⟨_, _, rfl, rfl, ?_, List.drop_length⟩
    rw [List.take_length]
    exact Text.readable_ofText text
  refine ⟨token, ?_, kind, reads⟩
  rw [Alone, spans, more, spansFrom, present, taken]
  simp only [rest, more]
  cases n with
  | zero => rfl
  | succ n => simp [spansFrom, rest, bind, Except.bind, pure, Except.pure]

end Lexer

end YaraRules
