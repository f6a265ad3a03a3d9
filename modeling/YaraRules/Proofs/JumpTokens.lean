import YaraRules.Proofs.HexWords
import YaraRules.Proofs.RegexpWords

/-! Numbers in jumps. The lexer finds a closing bracket of a jump only where it reads a jump, so a number
with such a bracket behind it, and no opening one between them, was read there, without a unit. -/

namespace YaraRules.Lexer

/-- A jump ends before the next one begins. -/
def endsJump : List TokenKind → Bool
  | [] => false
  | kind :: rest => kind == .hexJumpClose || kind != .hexJumpOpen && endsJump rest

/-- A token that is read as a number without a unit. -/
def IsNumber (a : Token) : Prop := ∃ text, Numeral (Bytes.ofText text) ∧
    integerLiteral? (Bytes.ofText text) = some a.literal

/-- Numbers in jumps have no unit. -/
def Jumping : List Token → Prop
  | [] => True
  | a :: rest => (a.kind = .integer → endsJump (rest.map (·.kind)) = true → IsNumber a) ∧ Jumping rest

theorem Jumping.suffix : ∀ {front back : List Token}, Jumping (front ++ back) → Jumping back
  | [], _, jumping => jumping
  | _ :: _, _, jumping => jumping.2.suffix

/-- Comments and line breaks are neither numbers nor brackets. -/
theorem Jumping.words : ∀ {tokens : List Token}, Jumping tokens → Jumping (tokens.filter fun a => !a.kind.isTrivia)
  | [], _ => trivial
  | a :: rest, jumping => by
    have same : ∀ rest : List Token, endsJump ((rest.filter fun a => !a.kind.isTrivia).map (·.kind)) =
        endsJump (rest.map (·.kind)) := by
      intro rest
      induction rest with
      | nil => rfl
      | cons b rest ih =>
        by_cases trivia : b.kind.isTrivia = true
        · have other : (b.kind == .hexJumpClose) = false ∧ (b.kind != .hexJumpOpen) = true := by
            revert trivia
            cases b.kind <;> simp [TokenKind.isTrivia]
          rw [List.filter_cons_of_neg (by simp [trivia]), ih, List.map_cons, endsJump, other.1, other.2]
          rfl
        · rw [List.filter_cons_of_pos (by simp [trivia]), List.map_cons, List.map_cons, endsJump, endsJump, ih]
    by_cases trivia : a.kind.isTrivia = true
    · rw [List.filter_cons_of_neg (by simp [trivia])]
      exact jumping.2.words
    · rw [List.filter_cons_of_pos (by simp [trivia])]
      exact ⟨same rest ▸ jumping.1, jumping.2.words⟩

private theorem endsJump_append {front back : List TokenKind} (inner : ∀ kind ∈ front, kind ≠ .hexJumpOpen) :
    endsJump (front ++ .hexJumpClose :: back) = true := by
  induction front with
  | nil => rfl
  | cons kind front ih =>
    obtain ⟨here, later⟩ := List.forall_mem_cons.mp inner
    rw [List.cons_append, endsJump, ih later, bne_iff_ne.mpr here]
    simp

theorem Jumping.number {front inner back : List Token} {a closing : Token}
    (jumping : Jumping (front ++ a :: (inner ++ closing :: back))) (number : a.kind = .integer)
    (open_ : ∀ b ∈ inner, b.kind ≠ .hexJumpOpen) (closes : closing.kind = .hexJumpClose) : IsNumber a := by
  refine jumping.suffix.1 number ?_
  rw [List.map_append, List.map_cons, closes]
  exact endsJump_append fun kind member => by
    obtain ⟨b, inside, rfl⟩ := List.mem_map.mp member
    exact open_ b inside

/-! ### Words of each mode -/

variable {mode inner : Mode} {bytes : Bytes} {kind : TokenKind} {length : Nat} {file : Option String}
    {s s' : State} {token : Token}

theorem lexeme_listed {lexeme : Lexeme} (found : lexeme? mode bytes = some (lexeme, length)) :
    (lexeme, some length) ∈ candidates mode bytes :=
  mem_of_longest found

private theorem closes_inside (found : lexeme? mode bytes = some (.token .hexJumpClose, length)) : mode = .hexJump := by
  have listed := lexeme_listed found
  cases mode with
  | hexJump => rfl
  | hexPattern => simp [candidates] at listed
  | normal =>
    rcases List.mem_append.mp listed with fixed | other
    · obtain ⟨⟨text, kind⟩, inside, same⟩ := List.mem_map.mp fixed
      have none : fixedTexts.all (·.2 != .hexJumpClose) = true := by decide +kernel
      have apart := List.all_eq_true.mp none _ inside
      simp only [Prod.mk.injEq, Lexeme.token.injEq] at same
      simp [same.1] at apart
    · simp at other

theorem number_inside (found : lexeme? .hexJump bytes = some (.token .integer, length)) :
    Numeral (bytes.take length) := by
  have listed := lexeme_listed found
  simp only [candidates, List.mem_cons, Prod.mk.injEq, Lexeme.token.injEq, List.not_mem_nil, or_false, reduceCtorEq,
    false_and, false_or, true_and] at listed
  exact numeral_of_integer listed.symm

/-! ### Steps -/

private theorem outwards_inner {found : Lexeme × Nat} (here : lexemeOutwards mode bytes = (inner, some found)) :
    lexeme? inner bytes = some found ∧ (inner = .hexJump → mode = .hexJump) := by
  unfold lexemeOutwards at here
  split at here
  next known =>
    cases here
    exact ⟨known, id⟩
  · split at here
    next known =>
      cases here
      exact ⟨known, by cases mode <;> nofun⟩
    · obtain ⟨rfl, known⟩ := Prod.mk.inj here
      exact ⟨known, nofun⟩

private theorem skipped_mode (done : step file s = .skipped s') : s'.mode = .hexJump → s.mode = .hexJump := by
  unfold step at done
  split at done
  next mode length here =>
    cases done
    exact (outwards_inner here).2
  · dsimp only at done
    split at done <;> cases done
  · cases done

theorem found_mode (done : step file s = .found token s') :
    ∃ inner kind length, lexeme? inner s.rest = some (.token kind, length) ∧ (inner = .hexJump → s.mode = .hexJump) ∧
    (token.kind = kind ∨ kind = .openBrace ∧ token.kind = .hexStart) ∧ (∃ location,
    makeToken token.kind (s.rest.take length) location = .ok token) ∧ s'.mode = modeAfter inner token.kind := by
  unfold step at done
  split at done
  · cases done
  next mode kind length here =>
    obtain ⟨known, outer⟩ := outwards_inner here
    dsimp only at done
    split at done
    next made =>
      cases done
      have same := makeToken_kind made
      refine ⟨mode, kind, length, known, outer, ?_, ⟨_, same ▸ made⟩, congrArg (modeAfter mode) same.symm⟩
      rw [same]
      split_ifs with brace
      · exact .inr ⟨beq_iff_eq.mp (Bool.and_eq_true_iff.mp brace).1, rfl⟩
      · exact .inl rfl
    next => cases done
  · cases done

/-- What the lexer does first, and what it does then. -/
theorem tokensFrom_cases {fuel : Nat} {tokens : List Token} (done : tokensFrom file (fuel + 1) s = .ok tokens) :
    tokens = [] ∨ (∃ s', step file s = .skipped s' ∧ tokensFrom file fuel s' = .ok tokens) ∨ ∃ token s' later,
    step file s = .found token s' ∧ tokensFrom file fuel s' = .ok later ∧ tokens = token :: later := by
  rw [tokensFrom] at done
  split_ifs at done
  · cases done
    exact .inl rfl
  · split at done
    next s' passed => exact .inr (.inl ⟨s', passed, done⟩)
    next token s' found =>
      cases more : tokensFrom file fuel s' with
      | error e =>
        rw [more] at done
        cases done
      | ok later =>
        rw [more] at done
        cases done
        exact .inr (.inr ⟨token, s', later, found, more, rfl⟩)
    next => cases done

private theorem endsJump_outside : ∀ (fuel : Nat) (s : State)
    (tokens : List Token), s.mode ≠ .hexJump → tokensFrom file fuel s = .ok tokens →
    endsJump (tokens.map (·.kind)) = false
  | 0, _, _, _, done => by
    cases done
    rfl
  | fuel + 1, s, tokens, outside, done => by
    rcases tokensFrom_cases done with rfl | ⟨s', passed, more⟩ | ⟨token, s', later, found, more, rfl⟩
    · rfl
    · exact endsJump_outside fuel s' tokens (fun inside => outside (skipped_mode passed inside)) more
    · obtain ⟨inner, kind, length, here, outer, role, _, mode⟩ := found_mode found
      have apart : inner ≠ .hexJump := fun same => outside (outer same)
      have closing : (token.kind == .hexJumpClose) = false := by
        rw [beq_eq_false_iff_ne]
        intro closing
        rcases role with same | ⟨_, brace⟩
        · exact apart (closes_inside (closing ▸ same ▸ here))
        · cases closing.symm.trans brace
      rw [List.map_cons, endsJump, closing, Bool.false_or]
      by_cases opening : token.kind = .hexJumpOpen
      · simp [opening]
      · have left : s'.mode ≠ .hexJump := by
          rw [mode]
          unfold modeAfter
          split
          · nofun
          · nofun
          next same => exact absurd same opening
          · nofun
          · exact apart
        rw [endsJump_outside fuel s' later left more, Bool.and_false]

theorem ofText_ascii (small : ∀ b ∈ bytes, b.toNat < 128) :
    Bytes.ofText (String.ofList (bytes.map fun b => Char.ofNat b.toNat)) = bytes := by
  rw [Bytes.ofText, String.toList_ofList]
  induction bytes with
  | nil => rfl
  | cons b bytes ih =>
    obtain ⟨here, later⟩ := List.forall_mem_cons.mp small
    have split : Utf8.encode ((b :: bytes).map fun b => Char.ofNat b.toNat) =
        String.utf8EncodeChar (Char.ofNat b.toNat) ++ Utf8.encode (bytes.map fun b => Char.ofNat b.toNat) :=
          List.flatMap_cons
    rw [split, ih later, (marks_ascii b.toNat here).1, UInt8.ofNat_toNat]
    rfl

theorem Numeral.ascii (numeral : Numeral bytes) : ∀ b ∈ bytes, b.toNat < 128 := by
  have digit {b : UInt8} (holds : isHexDigit b = true) : b.toNat < 128 := by
    have known : ∀ n < 256, isHexDigit (UInt8.ofNat n) = true → n < 128 := by decide +kernel
    exact known b.toNat b.toNat_lt (by rwa [UInt8.ofNat_toNat])
  have decimal {b : UInt8} (holds : isDigit b = true) : b.toNat < 128 := digit (by rw [isHexDigit, holds]; rfl)
  have octal {b : UInt8} (holds : isOctalDigit b = true) : b.toNat < 128 := by
    have known : ∀ n < 256, isOctalDigit (UInt8.ofNat n) = true → n < 128 := by decide +kernel
    exact known b.toNat b.toNat_lt (by rwa [UInt8.ofNat_toNat])
  cases numeral with
  | decimal _ all => exact fun b member => decimal (all b member)
  | hexadecimal _ all =>
    exact List.forall_mem_cons.mpr
      ⟨by decide, List.forall_mem_cons.mpr ⟨by decide, fun b member => digit (all b member)⟩⟩
  | octal _ all =>
    exact List.forall_mem_cons.mpr
      ⟨by decide, List.forall_mem_cons.mpr ⟨by decide, fun b member => octal (all b member)⟩⟩

/-- Numbers that the lexer finds in jumps have no unit. -/
theorem tokensFrom_jumping : ∀ (fuel : Nat) (s : State)
    (tokens : List Token), tokensFrom file fuel s = .ok tokens → Jumping tokens
  | 0, _, _, done => by
    cases done
    trivial
  | fuel + 1, s, tokens, done => by
    rcases tokensFrom_cases done with rfl | ⟨s', passed, more⟩ | ⟨token, s', later, found, more, rfl⟩
    · trivial
    · exact tokensFrom_jumping fuel s' tokens more
    · refine ⟨fun number ends => ?_, tokensFrom_jumping fuel s' later more⟩
      obtain ⟨inner, kind, length, here, outer, role, ⟨location, made⟩, mode⟩ := found_mode found
      have same : kind = .integer := by
        rcases role with same | ⟨_, brace⟩
        · exact same ▸ number
        · cases number.symm.trans brace
      -- The number was found in a jump, since no bracket could end one otherwise.
      have inside : inner = .hexJump := by
        by_contra outside
        have left : s'.mode ≠ .hexJump := by
          rw [mode, number]
          exact outside
        rw [endsJump_outside fuel s' later left more] at ends
        cases ends
      subst inside same
      have numeral := number_inside here
      have bytes := ofText_ascii numeral.ascii
      refine ⟨_, bytes.symm ▸ numeral, ?_⟩
      rw [number, makeToken] at made
      split at made
      next literal read =>
        cases made
        rw [bytes, read]
      next => cases made

end YaraRules.Lexer
