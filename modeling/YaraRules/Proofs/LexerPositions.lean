import YaraRules.Proofs.TokenEnds

/-! Positions of tokens. A position is the number of line breaks before a token and the width of
what stands between the last of them and the token. The lexer sums positions up over the
pieces it takes, and a carriage return inside a piece is passed over: it is a
line break only where it is a piece of its own. -/

namespace YaraRules

/-! ### Breaks -/

namespace Position

variable {text front back : Bytes} {b : UInt8}

/-- Line breaks of a text: line feeds, and carriage returns that no line feed follows. -/
def breaks : Bytes → Nat
  | [] => 0
  | b :: rest => breaks rest + if b == 0x0A || (b == 0x0D && rest.head? != some 0x0A) then 1 else 0

/-- The place behind a text, from its line breaks and the characters since the last one. -/
def behind (text : Bytes) : Position where
  line := 1 + breaks text
  column := 1 + (text.reverse.takeWhile fun b => b != 0x0A && b != 0x0D).countP (!Utf8.isTail ·)

/-- Two texts may be joined without a carriage return and a line feed coming together. -/
def Apart (front back : Bytes) : Prop := front.getLast? = some 0x0D → back.head? ≠ some 0x0A

private theorem apart_last (last : back.getLast? = some b) (other : b ≠ 0x0D) (front rest : Bytes) :
    Apart (front ++ back) rest := by
  intro carriage
  rw [List.getLast?_append, last, Option.some_or] at carriage
  exact absurd (Option.some.inj carriage) other

private theorem apart_head {rest : Bytes} (apart : Apart front (back ++ rest)) (full : back ≠ []) :
    Apart front back := by
  intro last
  rw [← List.head?_append_of_ne_nil _ full]
  exact apart last

private theorem breaks_append (apart : Apart front back) : breaks (front ++ back) = breaks front + breaks back := by
  induction front with
  | nil => exact (Nat.zero_add _).symm
  | cons b front ih =>
    cases front with
    | nil =>
      rw [List.cons_append, List.nil_append]
      by_cases carriage : b = 0x0D
      · have free := apart (by rw [carriage]; rfl)
        simp [breaks, carriage, free, Nat.add_comm]
      · simp [breaks, carriage, Nat.add_comm]
    | cons c front =>
      have later := ih fun last => apart (by simpa [List.getLast?_cons_cons] using last)
      have head : (c :: front ++ back).head? = (c :: front).head? := rfl
      rw [List.cons_append, breaks, later, head, breaks.eq_2 b]
      omega

private theorem feeds_le (text : Bytes) : text.count 0x0A ≤ breaks text := by
  induction text with
  | nil => exact Nat.le_refl _
  | cons b text ih =>
    rw [breaks, List.count_cons]
    by_cases feed : b = 0x0A
    · simp [feed, ih]
    · simp only [beq_false_of_ne feed, Bool.false_eq_true, if_false, Nat.add_zero]
      exact Nat.le_add_right_of_le ih

private theorem behind_push (apart : Apart text [b]) (other : b ≠ 0x0D) :
    behind (text ++ [b]) = (behind text).step b := by
  have free : (b == 0x0D) = false := beq_false_of_ne other
  unfold behind
  rw [breaks_append apart, List.reverse_append, List.reverse_singleton, List.singleton_append, List.takeWhile_cons]
  by_cases feed : b = 0x0A
  · simp [feed, breaks, step, Nat.add_assoc]
  · have kept : (b != 0x0A && b != 0x0D) = true := by simp [feed, other]
    rw [if_pos kept, List.countP_cons]
    cases tail : Utf8.isTail b <;> simp [step, breaks, feed, other, tail, Nat.add_assoc]

private theorem behind_break (front : Bytes) : behind (front ++ [0x0D]) = ⟨(behind front).line + 1, 1⟩ := by
  unfold behind
  rw [breaks_append (fun _ => by decide), List.reverse_append]
  rfl

private theorem behind_pair (front : Bytes) :
    behind (front ++ [0x0D, 0x0A]) = ((behind front).step 0x0D).step 0x0A := by
  unfold behind
  rw [breaks_append (fun _ => by decide), List.reverse_append]
  rfl

private theorem behind_append : ∀ {back front : Bytes}, breaks back = back.count 0x0A → Apart front back →
    behind (front ++ back) = back.foldl step (behind front)
  | [], front, _, _ => by rw [List.append_nil, List.foldl_nil]
  | b :: back, front, feeds, apart => by
    by_cases carriage : b = 0x0D
    · subst carriage
      rw [breaks, List.count_cons_of_ne (by decide)] at feeds
      cases back with
      | nil => cases feeds
      | cons c back =>
        obtain rfl : c = 0x0A := by
          by_contra other
          have most := feeds_le (c :: back)
          rw [if_pos (by simp [other])] at feeds
          omega
        have later : breaks back = back.count 0x0A := by
          have both : breaks (0x0A :: back) = (0x0A :: back).count 0x0A := by simpa using feeds
          simpa [breaks] using both
        have split : front ++ 0x0D :: 0x0A :: back = front ++ [0x0D] ++ [0x0A] ++ back := by simp
        rw [split, behind_append later (apart_last rfl (by decide) _ _), List.append_assoc, List.singleton_append,
          behind_pair, List.foldl_cons, List.foldl_cons]
    · have later : breaks back = back.count 0x0A := by
        rw [breaks, List.count_cons] at feeds
        by_cases feed : b = 0x0A
        · simpa [feed] using feeds
        · simpa [feed, carriage] using feeds
      rw [List.append_cons, behind_append later (apart_last rfl carriage _ _),
        behind_push (fun last => apart last) carriage, List.foldl_cons]

/-- A text without the carriage returns that no line feed follows. -/
def joined : Bytes → Bytes
  | [] => []
  | b :: rest => if b == 0x0D && rest.head? != some 0x0A then joined rest else b :: joined rest

private theorem joined_feed (feed : (joined text).head? = some 0x0A) : text.head? = some 0x0A := by
  induction text with
  | nil => exact feed
  | cons b text ih =>
    unfold joined at feed
    split_ifs at feed with alone
    · rw [ih feed] at alone
      simp at alone
    · exact feed

private theorem foldl_joined (p : Position) : (joined text).foldl step p = text.foldl step p := by
  induction text generalizing p with
  | nil => rfl
  | cons b text ih =>
    unfold joined
    split_ifs with alone
    · rw [ih, List.foldl_cons, beq_iff_eq.mp (Bool.and_eq_true_iff.mp alone).1]
      rfl
    · rw [List.foldl_cons, List.foldl_cons, ih]

private theorem count_joined (text : Bytes) : (joined text).count 0x0A = text.count 0x0A := by
  induction text with
  | nil => rfl
  | cons b text ih =>
    unfold joined
    split_ifs with alone
    · rw [ih, beq_iff_eq.mp (Bool.and_eq_true_iff.mp alone).1, List.count_cons_of_ne (by decide)]
    · rw [List.count_cons, List.count_cons, ih]

private theorem breaks_joined (text : Bytes) : breaks (joined text) = text.count 0x0A := by
  induction text with
  | nil => rfl
  | cons b text ih =>
    unfold joined
    split_ifs with alone
    · rw [ih, beq_iff_eq.mp (Bool.and_eq_true_iff.mp alone).1, List.count_cons_of_ne (by decide)]
    · rw [breaks, ih, List.count_cons]
      by_cases carriage : b = 0x0D
      · obtain ⟨rest, rfl⟩ : ∃ rest, text = 0x0A :: rest := List.head?_eq_some_iff.mp (by simpa [carriage] using alone)
        simp [carriage, joined]
      · simp [carriage]

private theorem joined_eq (feeds : breaks text = text.count 0x0A) : joined text = text := by
  induction text with
  | nil => rfl
  | cons b text ih =>
    have most := feeds_le text
    unfold joined
    rw [breaks, List.count_cons] at feeds
    split_ifs with alone
    · rw [if_pos (by simp [alone]), beq_iff_eq.mp (Bool.and_eq_true_iff.mp alone).1] at feeds
      simp at feeds
      omega
    · rw [ih]
      by_cases feed : b = 0x0A
      · simpa [feed] using feeds
      · simpa [feed, alone] using feeds

private theorem joined_last {text : Bytes} {b : UInt8} (last : text.getLast? = some b) (other : b ≠ 0x0D) :
    (joined text).getLast? = some b := by
  induction text with
  | nil => cases last
  | cons c text ih =>
    unfold joined
    cases text with
    | nil =>
      obtain rfl : c = b := Option.some.inj last
      rw [if_neg (by simp [other])]
      rfl
    | cons d text =>
      have later := ih (by simpa [List.getLast?_cons_cons] using last)
      split_ifs
      · exact later
      · rw [List.getLast?_cons, later, Option.getD_some]

end Position

/-! ### Pieces -/

namespace Lexer

open Position (breaks behind joined Apart)

variable {file : Option String} {source : Bytes} {s s' : State} {token : Token} {pieces : List (Lexeme × Bytes)}
    {piece : Lexeme × Bytes}

/-- One step takes a piece from the head of what is left. -/
structure Takes (file : Option String) (s : State) (piece : Lexeme × Bytes) (s' : State) : Prop where
  split : s.rest = piece.2 ++ s'.rest
  done : match piece.1 with
    | .blank => step file s = .skipped s'
    | .token kind => ∃ token, token.kind = kind ∧ step file s = .found token s'

/-- The lexer has come from the head of a source over some pieces. -/
inductive Comes (file : Option String) (source : Bytes) : List (Lexeme × Bytes) → State → Prop where
  | start : Comes file source [] { rest := source }
  | step {pieces : List (Lexeme × Bytes)} {piece : Lexeme × Bytes} {s s' : State} (before : Comes file source pieces s)
    (takes : Takes file s piece s') : Comes file source (pieces ++ [piece]) s'

/-- A token is found right behind some pieces of a source. -/
def Behind (file : Option String) (source : Bytes) (pieces : List (Lexeme × Bytes)) (token : Token) : Prop :=
  ∃ s s', Comes file source pieces s ∧ step file s = .found token s'

/-- A piece ends no line in the middle of a break: it is a line break, or ends in no carriage return. -/
def Closed (piece : Lexeme × Bytes) (rest : Bytes) : Prop :=
  piece.1 = .token .newLine ∧ (piece.2 = [0x0A] ∨ piece.2 = [0x0D, 0x0A] ∨ piece.2 = [0x0D] ∧ rest.head? ≠ some 0x0A) ∨
    piece.1 ≠ .token .newLine ∧ ∃ b, piece.2.getLast? = some b ∧ b ≠ 0x0D

theorem Taken.some {lexeme : Lexeme} {length : Nat} {bytes : Bytes} (taken : Taken lexeme length bytes) :
    bytes.take length ≠ [] := by
  intro none
  have short := congrArg List.length none
  have positive := taken.positive
  have most := taken.most
  rw [List.length_take, List.length_nil] at short
  omega

theorem Ended.closed {lexeme : Lexeme} {taken behind : Bytes} (ended : Ended lexeme taken behind) (some : taken ≠ [])
    (blank : lexeme = .blank → ∀ b ∈ taken, b = 0x20 ∨ b = 0x09) : Closed (lexeme, taken) behind := by
  -- A piece whose last byte cannot be a carriage return.
  have never (other : lexeme ≠ .token .newLine) (all : ∀ b ∈ taken, b ≠ 0x0D) : Closed (lexeme, taken) behind :=
    .inr ⟨other, taken.getLast some, List.getLast?_eq_some_getLast some, all _ (List.getLast_mem some)⟩
  unfold Ended at ended
  split at ended
  · refine never nofun fun b member carriage => ?_
    have tab := blank rfl b member
    rw [carriage] at tab
    exact absurd tab (by decide)
  · exact .inl ⟨rfl, ended⟩
  · obtain ⟨inner, rfl, plain⟩ := ended
    refine never nofun fun b member carriage => ?_
    subst carriage
    rcases List.mem_cons.mp member with slash | later
    · cases slash
    · rcases List.mem_cons.mp later with slash | later
      · cases slash
      · exact (plain _ later).2 rfl
  next kind line _ => exact .inr ⟨fun same => line (Lexeme.token.inj same), ended.last⟩

private theorem makeToken_location {kind : TokenKind} {bytes : Bytes} {location : Location}
    (made : makeToken kind bytes location = .ok token) : token.location = location := by
  unfold makeToken at made
  split at made
  case h_2 => split at made <;> cases made; rfl
  all_goals
    cases made
    rfl

private theorem skipped_takes (done : step file s = .skipped s') : ∃ bytes, Takes file s (.blank, bytes) s' ∧
    Closed (.blank, bytes) s'.rest ∧ s'.position = s.position.after bytes := by
  have whole := done
  unfold step at done
  split at done
  next mode length found =>
    cases done
    have taken := lexemeOutwards_taken found
    exact ⟨s.rest.take length, ⟨(List.take_append_drop ..).symm, whole⟩, Ended.closed trivial taken.some fun _ =>
      taken.shaped, rfl⟩
  · dsimp only at done
    split at done <;> cases done
  · cases done

private theorem found_takes (done : step file s = .found token s') :
    ∃ bytes, Takes file s (.token token.kind, bytes) s' ∧ Closed (.token token.kind, bytes) s'.rest ∧
    token.location.first = s.position ∧ s'.position = s.position.after bytes := by
  have whole := done
  unfold step at done
  split at done
  · cases done
  next mode kind length found =>
    dsimp only at done
    split at done
    next made =>
      cases done
      have taken := lexemeOutwards_taken found
      have ended : Ended (.token kind) (s.rest.take length) (s.rest.drop length) :=
        candidates_ended mode s.rest _ (mem_of_longest (lexemeOutwards_lexeme found)) length rfl
      have closed : Closed (.token token.kind, s.rest.take length) (s.rest.drop length) := by
        rw [makeToken_kind made]
        split_ifs with brace
        · rw [beq_iff_eq.mp (Bool.and_eq_true_iff.mp brace).1] at ended
          exact .inr ⟨nofun, Utf8.Solid.last ended⟩
        · exact ended.closed taken.some nofun
      exact ⟨s.rest.take length, ⟨(List.take_append_drop ..).symm, token, rfl, whole⟩, closed,
        congrArg Location.first (makeToken_location made), rfl⟩
    · cases done
  · cases done

theorem Takes.closed (takes : Takes file s piece s') :
    Closed piece s'.rest ∧ s'.position = s.position.after piece.2 := by
  obtain ⟨lexeme, bytes⟩ := piece
  have same {bytes' : Bytes} {lexeme' : Lexeme} (other : Takes file s (lexeme', bytes') s') : bytes' = bytes :=
    List.append_cancel_right (other.split.symm.trans takes.split)
  cases lexeme with
  | blank =>
    obtain ⟨bytes', other, closed, moved⟩ := skipped_takes takes.done
    exact same other ▸ ⟨closed, moved⟩
  | token kind =>
    obtain ⟨token, rfl, done⟩ := takes.done
    obtain ⟨bytes', other, closed, _, moved⟩ := found_takes done
    exact same other ▸ ⟨closed, moved⟩

/-- What counts of a piece as a break: all of a line break, and of other pieces only line feeds. -/
def counted (piece : Lexeme × Bytes) : Bytes := if piece.1 = .token .newLine then piece.2 else joined piece.2

/-- No break of a piece is passed over. -/
def Even (piece : Lexeme × Bytes) : Prop := piece.1 = .token .newLine ∨ breaks piece.2 = piece.2.count 0x0A

section Closed

variable {rest : Bytes} (closed : Closed piece rest)
include closed

theorem Closed.full : piece.2 ≠ [] := by
  rcases closed with ⟨_, feed | pair | ⟨carriage, _⟩⟩ | ⟨_, b, last, _⟩
  · exact feed ▸ List.cons_ne_nil _ _
  · exact pair ▸ List.cons_ne_nil _ _
  · exact carriage ▸ List.cons_ne_nil _ _
  · intro none
    rw [none] at last
    cases last

/-- What counts of a piece stands apart from what is before it and behind it, as the piece does. -/
theorem Closed.apart {front : Bytes} (apart : Apart front (piece.2 ++ rest)) :
    Apart front (counted piece) ∧ Apart (front ++ counted piece) rest ∧ Apart (front ++ piece.2) rest := by
  have before := Position.apart_head apart closed.full
  unfold counted
  rcases closed with ⟨line, feed | pair | ⟨carriage, free⟩⟩ | ⟨other, b, last, black⟩
  · rw [if_pos line]
    have behind := Position.apart_last (congrArg List.getLast? feed) (by decide) front rest
    exact ⟨before, behind, behind⟩
  · rw [if_pos line]
    have behind := Position.apart_last (congrArg List.getLast? pair) (by decide) front rest
    exact ⟨before, behind, behind⟩
  · rw [if_pos line]
    exact ⟨before, fun _ => free, fun _ => free⟩
  · rw [if_neg other]
    exact ⟨fun last feed => before last (Position.joined_feed feed),
      Position.apart_last (Position.joined_last last black) black front rest, Position.apart_last last black front rest⟩

/-- A piece is passed as what counts of it is. -/
theorem Closed.after {front : Bytes} (apart : Apart front (piece.2 ++ rest)) :
    (behind front).after piece.2 = behind (front ++ counted piece) := by
  have before := closed.apart apart
  unfold counted at before ⊢
  rcases closed with ⟨line, feed | pair | ⟨carriage, _⟩⟩ | ⟨other, b, last, black⟩
  · rw [if_pos line, feed] at before ⊢
    exact (Position.behind_push before.1 (by decide)).symm
  · rw [if_pos line, pair]
    exact (Position.behind_pair front).symm
  · rw [if_pos line, carriage]
    exact (Position.behind_break front).symm
  · rw [if_neg other] at before ⊢
    rw [Position.behind_append ((Position.breaks_joined _).trans (Position.count_joined _).symm) before.1,
      Position.foldl_joined, Position.after, last, if_neg (by simpa using black)]

end Closed

private theorem counted_le (piece : Lexeme × Bytes) : breaks (counted piece) ≤ breaks piece.2 := by
  unfold counted
  split_ifs
  · exact Nat.le_refl _
  · exact Position.breaks_joined piece.2 ▸ Position.feeds_le piece.2

private theorem even_iff : Even piece ↔ breaks (counted piece) = breaks piece.2 := by
  unfold Even counted
  split_ifs with line
  · simp [line]
  · rw [Position.breaks_joined, or_iff_right line, eq_comm]

theorem Even.counted (even : Even piece) : counted piece = piece.2 := by
  unfold Lexer.counted
  split_ifs with line
  · rfl
  · exact Position.joined_eq (even.resolve_left line)

/-- What has been added up over the pieces up to a state. -/
structure Sums (source : Bytes) (pieces : List (Lexeme × Bytes)) (s : State) : Prop where
  whole : pieces.flatMap (·.2) ++ s.rest = source
  apart : Apart (pieces.flatMap (·.2)) s.rest
  apart' : Apart (pieces.flatMap counted) s.rest
  position : s.position = behind (pieces.flatMap counted)
  fewer : breaks (pieces.flatMap counted) ≤ breaks (pieces.flatMap (·.2))
  even : breaks (pieces.flatMap counted) = breaks (pieces.flatMap (·.2)) → ∀ piece ∈ pieces, Even piece

theorem Sums.step (sums : Sums source pieces s) (takes : Takes file s piece s') :
    Sums source (pieces ++ [piece]) s' := by
  obtain ⟨closed, moved⟩ := takes.closed
  have apart := takes.split ▸ sums.apart
  have apart' := takes.split ▸ sums.apart'
  obtain ⟨here, later', _⟩ := closed.apart apart'
  have all : breaks (pieces.flatMap (·.2) ++ piece.2) = _ :=
    Position.breaks_append (Position.apart_head apart closed.full)
  have some : breaks (pieces.flatMap counted ++ counted piece) = _ := Position.breaks_append here
  have fewer := sums.fewer
  have least := counted_le piece
  have whole : (pieces ++ [piece]).flatMap (·.2) = pieces.flatMap (·.2) ++ piece.2 := by simp
  have part : (pieces ++ [piece]).flatMap counted = pieces.flatMap counted ++ counted piece := by simp
  refine ⟨?_, ?_, ?_, ?_, ?_, fun same => ?_⟩
  · rw [whole, List.append_assoc, ← takes.split]
    exact sums.whole
  · rw [whole]
    exact (closed.apart apart).2.2
  · rw [part]
    exact later'
  · rw [moved, sums.position, part]
    exact closed.after apart'
  · rw [whole, part, all, some]
    exact Nat.add_le_add fewer least
  · rw [whole, part, all, some] at same
    refine List.forall_mem_append.mpr ⟨sums.even (by omega), List.forall_mem_singleton.mpr (even_iff.mpr (by omega))⟩

private theorem Comes.sums (comes : Comes file source pieces s) : Sums source pieces s := by
  induction comes with
  | start => exact ⟨rfl, nofun, nofun, rfl, Nat.le_refl _, nofun⟩
  | step _ takes sums => exact sums.step takes

private theorem tokensFrom_behind {fuel : Nat} {found : List Token} (comes : Comes file source pieces s)
    (done : tokensFrom file fuel s = .ok found) : ∀ token ∈ found, ∃ pieces, Behind file source pieces token := by
  induction fuel generalizing pieces s found with
  | zero =>
    cases done
    exact fun token member => absurd member List.not_mem_nil
  | succ fuel ih =>
    rcases tokensFrom_cases done with rfl | ⟨s', passed, more⟩ | ⟨token, s', later, made, more, rfl⟩
    · exact fun token member => absurd member List.not_mem_nil
    · obtain ⟨_, takes, _⟩ := skipped_takes passed
      exact ih (comes.step takes) more
    · obtain ⟨_, takes, _⟩ := found_takes made
      exact List.forall_mem_cons.mpr ⟨⟨pieces, s, s', comes, made⟩, ih (comes.step takes) more⟩

/-- Every token stands behind some pieces of the source. Its position is that of the text before it without
the carriage returns that are inside a piece and that no line feed follows, so it is right exactly if there
are none. -/
theorem token_positions (file : Option String) (source : Bytes) :
    (∀ found, tokens file source = .ok found → ∀ token ∈ found, ∃ pieces, Behind file source pieces token) ∧
      ∀ pieces token, Behind file source pieces token → pieces.flatMap (·.2) <+: source ∧
        token.location.first = behind (pieces.flatMap counted) ∧
        (token.location.first = behind (pieces.flatMap (·.2)) ↔ ∀ piece ∈ pieces, Even piece) := by
  refine ⟨fun found done => tokensFrom_behind Comes.start done, ?_⟩
  intro pieces token ⟨s, s', comes, made⟩
  have sums := comes.sums
  obtain ⟨_, _, _, first, _⟩ := found_takes made
  rw [first, sums.position]
  refine ⟨⟨s.rest, sums.whole⟩, rfl, fun same => sums.even ?_, fun even => ?_⟩
  · have line := congrArg Position.line same
    exact Nat.add_left_cancel line
  · rw [List.flatMap_congr fun piece member => (even piece member).counted]

/-- Behind a comment with a lone carriage return, a token stands on the second line and is found on the first. -/
theorem token_positions_comment : ∃ pieces token, Behind none (Bytes.ofText "/* x\ry */rule") pieces token ∧
    token.location.first = ⟨1, 9⟩ ∧ behind (pieces.flatMap (·.2)) = ⟨2, 5⟩ ∧ ¬∀ piece ∈ pieces, Even piece := by
  have found : Behind none (Bytes.ofText "/* x\ry */rule") [(.token .blockComment, Bytes.ofText "/* x\ry */")] _ :=
    ⟨_, _, .step .start ⟨rfl, _, rfl, rfl⟩, rfl⟩
  obtain ⟨_, first, right⟩ := (token_positions _ _).2 _ _ found
  have true_place : behind ([(Lexeme.token .blockComment, Bytes.ofText "/* x\ry */")].flatMap (·.2)) = ⟨2, 5⟩ := by
    decide
  have given : _ = Position.mk 1 9 := first.trans (by decide)
  refine ⟨_, _, found, given, true_place, fun even => ?_⟩
  exact absurd (given.symm.trans ((right.mpr even).trans true_place)) (by decide)

end Lexer

end YaraRules
