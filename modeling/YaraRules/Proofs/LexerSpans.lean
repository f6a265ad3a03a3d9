import YaraRules.Proofs.LexerClasses

/-! Where the lexer finds tokens. Each step takes a byte at least, so the lexer comes to the
end of a source or to a problem in no more steps than there are bytes. Tokens follow
one another in the source, and there is nothing but blanks between them. -/

namespace YaraRules.Lexer

variable {bytes : Bytes} {length : Nat}

/-! ### Steps -/

theorem mem_of_longest {lexeme : Lexeme} {length : Nat} : ∀ {candidates : List (Lexeme × Option Nat)},
    longest candidates = some (lexeme, length) → (lexeme, some length) ∈ candidates
  | [], found => by cases found
  | (_, none) :: rest, found => List.mem_cons_of_mem _ (mem_of_longest found)
  | (other, some more) :: rest, found => by
    unfold longest at found
    split at found
    next _ _ later =>
      split_ifs at found
      · cases found
        exact List.mem_cons_of_mem _ (mem_of_longest later)
      · cases found
        exact List.mem_cons_self
    next =>
      cases found
      exact List.mem_cons_self

/-- Some bytes at the head are of one kind. -/
structure Taken (lexeme : Lexeme) (length : Nat) (bytes : Bytes) : Prop where
  positive : 0 < length
  most : length ≤ bytes.length
  shaped : Shaped lexeme (bytes.take length)

theorem lexeme_taken {mode : Mode} {lexeme : Lexeme} (found : lexeme? mode bytes = some (lexeme, length)) :
    Taken lexeme length bytes :=
  have member := mem_of_longest found
  have fits := candidates_fit mode bytes _ member length rfl
  ⟨fits.1, fits.2, candidates_shaped mode bytes _ member length rfl⟩

theorem lexemeOutwards_lexeme {mode inner : Mode} {lexeme : Lexeme}
    (found : lexemeOutwards inner bytes = (mode, some (lexeme, length))) : lexeme? mode bytes =
    some (lexeme, length) := by
  unfold lexemeOutwards at found
  split at found
  next here =>
    cases found
    exact here
  · split at found
    next here =>
      cases found
      exact here
    · obtain ⟨rfl, here⟩ := Prod.mk.inj found
      exact here

theorem lexemeOutwards_taken {mode inner : Mode} {lexeme : Lexeme}
    (found : lexemeOutwards inner bytes = (mode, some (lexeme, length))) : Taken lexeme length bytes :=
  lexeme_taken (lexemeOutwards_lexeme found)

theorem makeToken_kind {kind : TokenKind} {bytes : Bytes} {location : Location} {token : Token}
    (made : makeToken kind bytes location = .ok token) : token.kind = kind := by
  unfold makeToken at made
  split at made
  case h_2 => split at made <;> cases made; rfl
  all_goals
    cases made
    rfl

variable {file : Option String} {s s' : State} {token : Token}

theorem step_skipped (done : step file s = .skipped s') :
    ∃ length, Taken .blank length s.rest ∧ s'.rest = s.rest.drop length := by
  unfold step at done
  split at done
  next mode length found =>
    cases done
    exact ⟨length, lexemeOutwards_taken found, rfl⟩
  · dsimp only at done
    split at done <;> cases done
  · cases done

theorem step_found (done : step file s = .found token s') : ∃ kind length location, Taken (.token kind) length s.rest ∧
    makeToken kind (s.rest.take length) location = .ok token ∧ s'.rest = s.rest.drop length ∧
    (token.kind = .hexStart ∨ ∃ mode, lexeme? mode s.rest = some (.token token.kind, length)) := by
  unfold step at done
  split at done
  · cases done
  next mode kind length found =>
    dsimp only at done
    split at done
    next token made =>
      cases done
      have taken := lexemeOutwards_taken found
      refine ⟨_, length, _, ?_, made, rfl, ?_⟩
      · split_ifs
        · exact ⟨taken.positive, taken.most, trivial⟩
        · exact taken
      · rw [makeToken_kind made]
        split_ifs
        · exact .inl rfl
        · exact .inr ⟨mode, lexemeOutwards_lexeme found⟩
    · cases done
  · cases done

/-- Each step that does not end in a problem takes some bytes. -/
theorem step_shortens (done : step file s = .skipped s' ∨ ∃ token, step file s = .found token s') :
    s'.rest.length < s.rest.length := by
  have shorter {lexeme : Lexeme} {length : Nat} (taken : Taken lexeme length s.rest) :
      (s.rest.drop length).length < s.rest.length := by
    have positive := taken.positive
    have most := taken.most
    rw [List.length_drop]
    omega
  rcases done with passed | ⟨token, made⟩
  · obtain ⟨length, taken, rest⟩ := step_skipped passed
    exact rest ▸ shorter taken
  · obtain ⟨kind, length, _, taken, _, rest, _⟩ := step_found made
    exact rest ▸ shorter taken

/-- More steps than there are bytes do not matter. -/
theorem tokensFrom_enough (file : Option String) : ∀ (fuel fuel' : Nat)
    (s : State), s.rest.length ≤ fuel → s.rest.length ≤ fuel' → tokensFrom file fuel s = tokensFrom file fuel' s := by
  have ended (fuel : Nat) (s : State) (none : s.rest = []) : tokensFrom file fuel s = .ok [] := by
    cases fuel with
    | zero => rfl
    | succ fuel => simp [tokensFrom, none]
  intro fuel
  induction fuel with
  | zero =>
    intro fuel' s enough _
    have none := List.length_eq_zero_iff.mp (Nat.le_zero.mp enough)
    rw [ended _ s none, ended _ s none]
  | succ fuel ih =>
    intro fuel' s enough enough'
    by_cases none : s.rest = []
    · rw [ended _ s none, ended _ s none]
    have some := List.length_pos_iff.mpr none
    obtain ⟨fuel', rfl⟩ : ∃ n, fuel' = n + 1 := ⟨fuel' - 1, by omega⟩
    have more : s.rest.isEmpty = false := by simpa using none
    unfold tokensFrom
    rw [more]
    cases taken : step file s with
    | skipped s' =>
      have shorter := step_shortens (.inl taken)
      exact ih fuel' s' (by omega) (by omega)
    | found token s' =>
      have shorter := step_shortens (.inr ⟨token, taken⟩)
      exact congrArg (· >>= fun words => Except.ok (token :: words)) (ih fuel' s' (by omega) (by omega))
    | failed e => rfl

/-! ### Spans -/

/-- A token and its bytes in a source, from `start` up to `stop`. -/
structure Span where
  token : Token
  start : Nat
  stop : Nat

def Span.slice (span : Span) (source : Bytes) : Bytes := (source.drop span.start).take (span.stop - span.start)

/-- Tokens as `tokensFrom` finds them, each with the bytes that are taken for it. Before the state `offset`
bytes were taken. -/
def spansFrom (file : Option String) : Nat → Nat → State → Except ParseError (List Span)
  | 0, _, _ => .ok []
  | fuel + 1, offset, s =>
    if s.rest.isEmpty then .ok []
    else
      match step file s with
      | .skipped s' => spansFrom file fuel (offset + (s.rest.length - s'.rest.length)) s'
      | .found token s' => do
        let stop := offset + (s.rest.length - s'.rest.length)
        return ⟨token, offset, stop⟩ :: (← spansFrom file fuel stop s')
      | .failed e => .error e

/-- All tokens of a source with their bytes. -/
def spans (file : Option String) (source : Bytes) : Except ParseError (List Span) :=
  spansFrom file source.length 0 { rest := source }

theorem spansFrom_tokens (file : Option String) : ∀ (fuel offset : Nat) (s : State),
    (spansFrom file fuel offset s).map (·.map Span.token) = tokensFrom file fuel s
  | 0, _, _ => rfl
  | fuel + 1, offset, s => by
    unfold spansFrom tokensFrom
    split_ifs
    · rfl
    cases taken : step file s with
    | skipped s' => exact spansFrom_tokens file fuel _ s'
    | found token s' =>
      have later := spansFrom_tokens file fuel (offset + (s.rest.length - s'.rest.length)) s'
      dsimp only
      rw [← later]
      cases spansFrom file fuel (offset + (s.rest.length - s'.rest.length)) s' <;> rfl
    | failed e => rfl

/-- Bytes of a source that are blanks. -/
def Blank (source : Bytes) (start stop : Nat) : Prop :=
  ∀ i, start ≤ i → i < stop → source[i]? = some 0x20 ∨ source[i]? = some 0x09

/-- A token stands behind some bytes, and nothing but blanks is between. -/
structure Span.Sited (span : Span) (source : Bytes) (offset : Nat) : Prop where
  after : offset ≤ span.start
  some : span.start < span.stop
  inside : span.stop ≤ source.length
  gap : Blank source offset span.start
  made : ∃ kind location, Shaped (.token kind) (span.slice source) ∧
    makeToken kind (span.slice source) location = .ok span.token
  lexed : span.token.kind = .hexStart ∨
    ∃ mode, lexeme? mode (source.drop span.start) = Option.some (.token span.token.kind, span.stop - span.start)

/-- Tokens stand one behind the other, with blanks before and behind each. -/
def Covers (source : Bytes) : Nat → List Span → Prop
  | offset, [] => Blank source offset source.length
  | offset, span :: rest => span.Sited source offset ∧ Covers source span.stop rest

variable {source : Bytes} {offset : Nat} {span : Span} {found : List Span}

theorem Blank.append {start middle stop : Nat} (first : Blank source start middle) (second : Blank source middle stop) :
    Blank source start stop :=
  fun i low high => (Nat.lt_or_ge i middle).elim (first i low) fun late => second i late high

theorem Covers.back {between : Nat} (gap : Blank source offset between) (before : offset ≤ between) :
    ∀ {found : List Span}, Covers source between found → Covers source offset found
  | [], covers => gap.append covers
  | _ :: _, ⟨sited, rest⟩ =>
    ⟨{ sited with after := Nat.le_trans before sited.after, gap := gap.append sited.gap }, rest⟩

theorem Taken.blank {length : Nat} (taken : Taken .blank length (source.drop offset)) :
    Blank source offset (offset + length) := by
  intro i low high
  have most := taken.most
  rw [List.length_drop] at most
  have inside : i < source.length := by omega
  have member : source[i] ∈ (source.drop offset).take length :=
    List.mem_iff_getElem.mpr ⟨i - offset, by simp only [List.length_take, List.length_drop]; omega, by
      simp [List.getElem_take, List.getElem_drop, show offset + (i - offset) = i by omega]⟩
  simpa [List.getElem?_eq_getElem inside] using taken.shaped _ member

theorem spansFrom_covers (file : Option String) : ∀ (fuel offset : Nat) (s : State)
    (found : List Span), s.rest = source.drop offset →
    offset ≤ source.length → s.rest.length ≤ fuel → spansFrom file fuel offset s = .ok found →
    Covers source offset found
  | 0, offset, s, found, same, most, enough, done => by
    cases done
    rw [same, List.length_drop] at enough
    exact fun i low high => absurd high (by omega)
  | fuel + 1, offset, s, found, same, most, enough, done => by
    unfold spansFrom at done
    split_ifs at done with ended
    · cases done
      have none : source.length - offset = 0 := by simpa [same] using congrArg List.length (List.isEmpty_iff.mp ended)
      exact fun i low high => absurd high (by omega)
    have advance {s' : State} {length : Nat} (positive : 0 < length) (taken : length ≤ s.rest.length)
      (rest : s'.rest = s.rest.drop length) :
        offset + (s.rest.length - s'.rest.length) = offset + length ∧ s'.rest = source.drop (offset + length) ∧
          offset + length ≤ source.length ∧ s'.rest.length ≤ fuel := by
      have left : s.rest.length = source.length - offset := by rw [same, List.length_drop]
      have left' : s'.rest.length = s.rest.length - length := by rw [rest, List.length_drop]
      refine ⟨?_, by rw [rest, same, List.drop_drop], ?_, ?_⟩ <;> omega
    split at done
    next s' passed =>
      obtain ⟨length, taken, rest⟩ := step_skipped passed
      obtain ⟨stop, rest', inside, enough'⟩ := advance taken.positive taken.most rest
      rw [stop] at done
      have covers := spansFrom_covers file fuel _ s' found rest' inside enough' done
      exact covers.back (Taken.blank (same ▸ taken)) (Nat.le_add_right _ _)
    next token s' made =>
      obtain ⟨kind, length, location, taken, from_, rest, lexed⟩ := step_found made
      obtain ⟨stop, rest', inside, enough'⟩ := advance taken.positive taken.most rest
      rw [stop] at done
      cases later : spansFrom file fuel (offset + length) s' with
      | error e => simp [later, bind, Except.bind] at done
      | ok more =>
        obtain rfl : ⟨token, offset, offset + length⟩ :: more = found := by
          simpa [later, bind, Except.bind, pure, Except.pure] using done
        have bytes : Span.slice ⟨token, offset, offset + length⟩ source = s.rest.take length := by
          simp [Span.slice, same]
        refine ⟨?_, spansFrom_covers file fuel _ s' more rest' inside enough' later⟩
        exact {
          after := Nat.le_refl _
          some := Nat.lt_add_of_pos_right taken.positive
          inside
          gap := fun i low high => absurd high (Nat.not_lt.mpr low)
          made := ⟨kind, location, bytes ▸ taken.shaped, bytes ▸ from_⟩
          lexed := by rwa [Nat.add_sub_cancel_left, ← same] }
    · cases done

theorem Covers.each (covers : Covers source offset found) :
    ∀ span ∈ found, ∃ before, offset ≤ before ∧ span.Sited source before := by
  induction found generalizing offset with
  | nil => exact fun _ member => absurd member List.not_mem_nil
  | cons first rest ih =>
    obtain ⟨sited, later⟩ := covers
    refine List.forall_mem_cons.mpr ⟨⟨offset, Nat.le_refl _, sited⟩, fun span member => ?_⟩
    obtain ⟨before, low, sited'⟩ := ih later span member
    exact ⟨before, Nat.le_trans (Nat.le_trans sited.after (Nat.le_of_lt sited.some)) low, sited'⟩

theorem Covers.pairwise (covers : Covers source offset found) : found.Pairwise fun a b => a.stop ≤ b.start := by
  induction found generalizing offset with
  | nil => exact .nil
  | cons first rest ih =>
    obtain ⟨_, later⟩ := covers
    refine .cons (fun span member => ?_) (ih later)
    obtain ⟨before, low, sited⟩ := later.each span member
    exact Nat.le_trans low sited.after

theorem Covers.blank (covers : Covers source offset found) {i : Nat} (low : offset ≤ i) (high : i < source.length)
    (outside : ∀ span ∈ found, i < span.start ∨ span.stop ≤ i) : source[i]? = some 0x20 ∨ source[i]? = some 0x09 := by
  induction found generalizing offset with
  | nil => exact covers i low high
  | cons first rest ih =>
    obtain ⟨sited, later⟩ := covers
    obtain ⟨here, outside⟩ := List.forall_mem_cons.mp outside
    rcases here with before | behind
    · exact sited.gap i low before
    · exact ih later behind outside

theorem spans_cover {file : Option String} (done : spans file source = .ok found) : Covers source 0 found :=
  spansFrom_covers file source.length 0 { rest := source } found rfl (Nat.zero_le _) (Nat.le_refl _) done

end YaraRules.Lexer
