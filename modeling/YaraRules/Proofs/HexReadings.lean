import YaraRules.Proofs.HexWords
import YaraRules.Proofs.ReadFileNames
import YaraRules.Proofs.RegexpWords

/-! Hex strings that are read back. The grammar makes of the words of a tree a hex string with the same
tree, by induction on the tree: a unit is read up to its last word and leaves the rest as it is. -/

namespace YaraRules

open HexTree
open Lexer (Made hexKinds)
open TokenStream (Plain)

/-! ### Tokens of words -/

section

variable {x : TokenStream} {text : String} {kind : TokenKind} {word : TokenKind × String} {h : Handle}

/-- A token of the stream was made of a word. -/
def Stands (x : TokenStream) (word : TokenKind × String) (h : Handle) : Prop :=
  ∃ a, x.get? h = some a ∧ a.kind = word.1 ∧ Made word a

private theorem stands_of_made {a : Token} (stored : x.get? h = some a) (made : Made word a) : Stands x word h := by
  obtain ⟨location, result⟩ := made
  exact ⟨a, stored, Lexer.makeToken_kind result, location, result⟩

theorem Stands.text_eq (stands : Stands x (kind, text) h) (known : kind ∈ hexKinds) : x.text h = text := by
  obtain ⟨a, stored, _, location, made⟩ := stands
  rw [Lexer.makeToken_hex known] at made
  cases made
  have plain : Plain { kind, location, literal := .ofWritten text } := rfl
  rw [TokenStream.text_eq x stored, TokenStream.textOf_plain x plain]
  simp only [hexKinds, List.mem_cons, List.not_mem_nil, or_false] at known
  rcases known with rfl | rfl | rfl | rfl | rfl | rfl | rfl | rfl | rfl | rfl | rfl <;> rfl

/-- The token of a bound has its text and its number. -/
theorem Stands.bound {b : JumpBound} (stands : Stands x (.integer, b.text) h) (sound : b.Sound) :
    HexUnit.bound x h = b := by
  obtain ⟨a, stored, _, location, made⟩ := stands
  obtain ⟨literal, read, number⟩ := sound.read
  have plain := (Lexer.makeToken_fresh made nofun).1
  simp only [Lexer.makeToken, read] at made
  cases made
  have text : x.text h = b.text := by
    rw [TokenStream.text_eq x stored, TokenStream.textOf_plain x plain]
    exact (Lexer.integerLiteral_text read).trans (toText_ofText b.text)
  have same : x.number? h = b.number := by
    rw [TokenStream.number?, stored]
    exact number
  rw [HexUnit.bound, text, same]

end

namespace Grammar

/-! ### Elementary steps -/

section

variable {s : State} {h : Handle} {rest : List Handle} {kind other : TokenKind} {text : String}

private theorem peek_word (waiting : s.source.rest = h :: rest) (stands : Stands s.source.tokens (kind, text) h) :
    peek? s = .ok (some kind, s) := by
  obtain ⟨a, stored, same, _⟩ := stands
  rw [show peek? s = _ from run_peekAt 0 s, waiting]
  simp [stored, same]

private theorem expect_word (waiting : s.source.rest = h :: rest) (stands : Stands s.source.tokens (kind, text) h) :
    expect kind s = .ok (h, s.leave rest) := by
  obtain ⟨a, stored, rfl, _⟩ := stands
  exact run_expect waiting stored

private theorem accept_word (waiting : s.source.rest = h :: rest) (stands : Stands s.source.tokens (kind, text) h) :
    accept? kind s = .ok (some h, s.leave rest) := by
  have taken : advance s = .ok (h, s.leave rest) := run_advance waiting
  unfold accept?
  rw [bind_ok (peek_word waiting stands), if_pos (by simp), bind_ok taken]
  rfl

private theorem accept_other (waiting : s.source.rest = h :: rest) (stands : Stands s.source.tokens (kind, text) h)
    (apart : kind ≠ other) : accept? other s = .ok (none, s) := by
  unfold accept?
  rw [bind_ok (peek_word waiting stands), if_neg (by simp [apart])]
  rfl

end

/-! ### Jumps -/

section

variable {s : State} {rest row : List Handle} {words : List (TokenKind × String)}

/-- The next word is of another kind, and there is one. -/
def Turns (kind : TokenKind) (words : List (TokenKind × String)) : Prop := ∃ word ∈ words.head?, word.1 ≠ kind

private theorem bound_run {bound : Option JumpBound} (sound : ∀ b ∈ bound, b.Sound) (turns : Turns .integer words)
    (stand : List.Forall₂ (Stands s.source.tokens) (boundWords bound ++ words) row)
    (waiting : s.source.rest = row ++ rest) :
    ∃ h row', accept? .integer s = .ok (h, s.leave (row' ++ rest)) ∧ h.map (HexUnit.bound s.source.tokens) = bound ∧
      List.Forall₂ (Stands s.source.tokens) words row' := by
  cases bound with
  | none =>
    obtain ⟨word, first, apart⟩ := turns
    obtain ⟨later, rfl⟩ := List.head?_eq_some_iff.mp first
    obtain ⟨h, row', here, more, rfl⟩ := List.forall₂_cons_left_iff.mp stand
    have left : s.leave (h :: row' ++ rest) = s := by rw [← waiting]; rfl
    exact ⟨none, h :: row', left.symm ▸ accept_other waiting here apart, rfl, .cons here more⟩
  | some b =>
    obtain ⟨h, row', here, more, rfl⟩ := List.forall₂_cons_left_iff.mp stand
    exact ⟨some h, row', accept_word waiting here, congrArg some (here.bound (sound b rfl)), more⟩

private theorem compared_run {α : Type} {low high : Option Handle} {stop : Int64 → Int64 → Problem} {h : Handle} {a : α}
    (order : ∀ l ∈ low.map (HexUnit.bound s.source.tokens),
    ∀ h ∈ high.map (HexUnit.bound s.source.tokens), l.InOrder h) :
    (do
      match integerAt? s.source.tokens low, integerAt? s.source.tokens high with
      | some l, some h' => if h' < l then fail h (stop l h')
      | _, _ => pure ()
      return a : Parse α) s = .ok (a, s) := by
  split
  next l h' first second =>
    have number {k : Option Handle} {i : Int64} (found : integerAt? s.source.tokens k = some i) :
        ∃ b ∈ k.map (HexUnit.bound s.source.tokens), b.number = some i.toInt := by
      obtain ⟨k, rfl, found⟩ := Option.bind_eq_some_iff.mp found
      obtain ⟨a, stored, fits⟩ := Option.bind_eq_some_iff.mp found
      exact ⟨_, rfl,
        by rw [HexUnit.bound, TokenStream.number?, stored, Option.bind_some, Literal.number_of_asInt? fits]⟩
    obtain ⟨b, low_bound, m⟩ := number first
    obtain ⟨c, high_bound, n⟩ := number second
    have ordered := order b low_bound c high_bound _ _ m n
    have small : l.toInt < Literal.signedLimit := l.toInt_lt
    have fine : ¬h' < l := by
      rw [Int64.lt_iff_toInt_lt]
      omega
    rw [if_neg fine]
    rfl
  next => rfl

private theorem jumpEnd_run {opening closing : Handle} {low dash high : Option Handle}
    (given : ¬(low.isNone && dash.isNone) = true)
    (order : ∀ l ∈ low.map (HexUnit.bound s.source.tokens), ∀ h ∈ high.map (HexUnit.bound s.source.tokens), l.InOrder h)
    (stands : Stands s.source.tokens (.hexJumpClose, "]") closing) (waiting : s.source.rest = closing :: rest) :
    jumpEnd opening low dash high s = .ok (.jump opening low dash high closing, s.leave rest) := by
  have looked : tokens (s.leave rest) = .ok (s.source.tokens, s.leave rest) := rfl
  unfold jumpEnd
  dsimp only
  rw [if_neg given, bind_ok (expect_word waiting stands), bind_ok looked]
  exact @compared_run (s.leave rest) _ low high _ opening _ order

/-- Where both bounds are written, nothing is read but with bounds in order. -/
private theorem jumpEnd_order {opening low dash high closing : Handle} {result : HexUnit × State}
    (stands : Stands s.source.tokens (.hexJumpClose, "]") closing) (waiting : s.source.rest = closing :: rest)
    (done : jumpEnd opening (some low) (some dash) (some high) s = .ok result) :
    (HexUnit.bound s.source.tokens low).InOrder (HexUnit.bound s.source.tokens high) := by
  have looked : tokens (s.leave rest) = .ok (s.source.tokens, s.leave rest) := rfl
  have given : ¬((some low).isNone && (some dash).isNone) = true := by simp
  refine TokenStream.inOrder_of_compared fun l h first second less => ?_
  have lower : integerAt? s.source.tokens (some low) = some l := first
  have upper : integerAt? s.source.tokens (some high) = some h := second
  unfold jumpEnd at done
  dsimp only at done
  rw [if_neg given, bind_ok (expect_word waiting stands), bind_ok looked, lower, upper] at done
  dsimp only at done
  rw [if_pos less] at done
  cases done

/-- A jump with a dash in it is read up to its last bracket. -/
private theorem hexJump_ranged {low high : Option JumpBound} (low_sound : ∀ b ∈ low, b.Sound)
    (high_sound : ∀ b ∈ high, b.Sound) (stand : List.Forall₂ (Stands s.source.tokens) (jump low true high).words row)
    (waiting : s.source.rest = row ++ rest) : ∃ opening first dash second closing,
      hexJump s = jumpEnd opening first (some dash) second (s.leave (closing :: rest)) ∧
      Stands s.source.tokens (.hexJumpClose, "]") closing ∧
      first.map (HexUnit.bound s.source.tokens) = low ∧ second.map (HexUnit.bound s.source.tokens) = high := by
  rw [HexTree.words] at stand
  obtain ⟨opening, row₁, here, stand₁, rfl⟩ := List.forall₂_cons_left_iff.mp stand
  have one := @expect_word s opening (row₁ ++ rest) _ _ waiting here
  obtain ⟨first, row₂, two, lower, stand₂⟩ :=
    @bound_run (s.leave (row₁ ++ rest)) rest row₁ _ _ low_sound ⟨_, rfl, by decide⟩ stand₁ rfl
  obtain ⟨dash, row₃, mark, stand₃, rfl⟩ := List.forall₂_cons_left_iff.mp stand₂
  have three := @accept_word ((s.leave (row₁ ++ rest)).leave (dash :: row₃ ++ rest)) dash
    (row₃ ++ rest) .dash "-" rfl mark
  obtain ⟨second, row₄, four, higher, stand₄⟩ :=
    @bound_run (((s.leave (row₁ ++ rest)).leave (dash :: row₃ ++ rest)).leave (row₃ ++ rest)) rest
    row₃ _ _ high_sound ⟨_, rfl, by decide⟩ stand₃ rfl
  obtain ⟨closing, row₅, last, none, rfl⟩ := List.forall₂_cons_left_iff.mp stand₄
  obtain rfl := List.forall₂_nil_left_iff.mp none
  refine ⟨opening, first, dash, second, closing, ?_, last, lower, higher⟩
  unfold hexJump
  rw [bind_ok one, bind_ok two, bind_ok three]
  dsimp only
  rw [bind_ok four]
  rfl

private theorem hexJump_run {low high : Option JumpBound} {ranged : Bool} (sound : (jump low ranged high).Sound)
    (stand : List.Forall₂ (Stands s.source.tokens) (jump low ranged high).words row)
    (waiting : s.source.rest = row ++ rest) : ∃ unit, hexJump s = .ok (unit, s.leave rest) ∧
    unit.tree s.source.tokens = jump low ranged high := by
  cases sound with
  | @length bound low_sound =>
    rw [HexTree.words] at stand
    obtain ⟨opening, row₁, here, stand₁, rfl⟩ := List.forall₂_cons_left_iff.mp stand
    have one := @expect_word s opening (row₁ ++ rest) _ _ waiting here
    obtain ⟨low, row₂, two, lower, stand₂⟩ :=
      @bound_run (s.leave (row₁ ++ rest)) rest row₁ _ _ (fun b same => Option.mem_some.mp same ▸ low_sound)
      ⟨_, rfl, by decide⟩ stand₁ rfl
    obtain ⟨closing, row₃, last, none, rfl⟩ := List.forall₂_cons_left_iff.mp stand₂
    obtain rfl := List.forall₂_nil_left_iff.mp none
    have three := @accept_other ((s.leave (row₁ ++ rest)).leave
      ([closing] ++ rest)) closing rest .hexJumpClose .dash "]" rfl last (by decide)
    have given : ¬(low.isNone && Option.isNone (Option.none : Option Handle)) = true := by
      cases low <;> simp_all
    unfold hexJump
    rw [bind_ok one, bind_ok two, bind_ok three]
    refine ⟨_, jumpEnd_run given nofun last rfl, ?_⟩
    rw [HexUnit.tree]
    exact lower ▸ rfl
  | range low_sound high_sound order =>
    obtain ⟨opening, first, dash, second, closing, run, last, lower, higher⟩ :=
      hexJump_ranged low_sound high_sound stand waiting
    rw [run]
    refine ⟨_, jumpEnd_run (by simp) (fun l low h high => ?_) last rfl, ?_⟩
    · exact order l (lower ▸ low) h (higher ▸ high)
    · rw [HexUnit.tree]
      exact lower ▸ higher ▸ rfl

/-- A jump between two bounds is read if and only if they are in order. -/
theorem hexJump_iff {low high : JumpBound} (low_sound : low.Sound) (high_sound : high.Sound)
    (stand : List.Forall₂ (Stands s.source.tokens) (jump (some low) true (some high)).words row)
    (waiting : s.source.rest = row ++ rest) : (∃ unit s', hexJump s = .ok (unit, s')) ↔ low.InOrder high := by
  have lows : ∀ b ∈ some low, b.Sound := fun b same => Option.mem_some.mp same ▸ low_sound
  have highs : ∀ b ∈ some high, b.Sound := fun b same => Option.mem_some.mp same ▸ high_sound
  constructor
  · rintro ⟨unit, s', done⟩
    obtain ⟨opening, first, dash, second, closing, run, last, lower, higher⟩ := hexJump_ranged lows highs stand waiting
    obtain ⟨l, rfl, rfl⟩ := Option.map_eq_some_iff.mp lower
    obtain ⟨h, rfl, rfl⟩ := Option.map_eq_some_iff.mp higher
    rw [run] at done
    exact @jumpEnd_order (s.leave (closing :: rest)) rest opening l dash h closing _ last rfl done
  · intro order
    have sound : (jump (some low) true (some high)).Sound := by
      refine .range lows highs fun l first h second => ?_
      rwa [← Option.mem_some.mp first, ← Option.mem_some.mp second]
    obtain ⟨unit, run, _⟩ := hexJump_run sound stand waiting
    exact ⟨unit, _, run⟩

/-! ### Units -/

/-- The next token starts no unit. -/
def Closed (s : State) (rest : List Handle) : Prop :=
  ∃ h more kind text, rest = h :: more ∧ Stands s.source.tokens (kind, text) h ∧ kind ∈
    [.hexAltOr, .hexAltClose, .hexEnd]

private theorem hexUnits_closed (closed : Closed s s.source.rest) : ∀ bound, hexUnits bound s = .ok ([], s)
  | 0 => rfl
  | bound + 1 => by
    obtain ⟨h, more, kind, text, waiting, stands, known⟩ := closed
    rw [hexUnits, bind_ok (peek_word waiting stands)]
    simp only [List.mem_cons, List.not_mem_nil, or_false] at known
    rcases known with rfl | rfl | rfl <;> rfl

/-- An alternative, which has one unit at least. -/
def hexAlternative (bound : Nat) : Parse (List HexUnit) := do
  let units ← hexUnits bound
  if units.isEmpty then unexpected "hex byte" else return units

private theorem words_some : ∀ unit : HexTree, unit.words ≠ []
  | .byte _ | .jump _ _ _ | .alternation _ => by rw [HexTree.words]; simp

private theorem wordsAll_some {units : List HexTree} (filled : units ≠ []) : wordsAll units ≠ [] := by
  obtain ⟨unit, rest, rfl⟩ := List.exists_cons_of_ne_nil filled
  rw [wordsAll]
  simp [words_some unit]

private theorem wordsAmong_bar (units : List HexTree) (rest : List (List HexTree)) :
    wordsAmong true (units :: rest) = (.hexAltOr, "|") :: wordsAmong false (units :: rest) := by
  rw [wordsAmong, wordsAmong]
  rfl

mutual

private theorem unit_run : ∀ (unit : HexTree) {s : State} {rest row : List Handle} {bound : Nat}, unit.Sound →
    List.Forall₂ (Stands s.source.tokens) unit.words row → s.source.rest = row ++ rest → row.length ≤ bound + 1 →
    ∃ u, hexUnits (bound + 1) s = (do return u :: (← hexUnits bound) : Parse (List HexUnit))
    (s.leave rest) ∧ u.tree s.source.tokens = unit
  | .byte text, s, rest, row, bound, sound, stand, waiting, _ => by
    rw [HexTree.words] at stand
    obtain ⟨token, row', here, none, rfl⟩ := List.forall₂_cons_left_iff.mp stand
    obtain rfl := List.forall₂_nil_left_iff.mp none
    have read : (HexByte.read? text).isSome := by
      cases sound with
      | byte read => exact read
    have taken : advance s = .ok (token, s.leave rest) := run_advance waiting
    have same : s.source.tokens.text token = text := here.text_eq (by decide)
    have written : textOf token (s.leave rest) = .ok (text, s.leave rest) := by
      rw [← same]
      rfl
    refine ⟨.byte token, ?_, by rw [HexUnit.tree, same]⟩
    rw [hexUnits, bind_ok (peek_word waiting here)]
    dsimp only
    rw [bind_ok taken, bind_ok written, if_neg (by simpa using Option.isSome_iff_ne_none.mp read)]
  | .jump low ranged high, s, rest, row, bound, sound, stand, waiting, _ => by
    obtain ⟨jump, run, same⟩ := hexJump_run sound stand waiting
    rw [HexTree.words] at stand
    obtain ⟨opening, row', here, _, rfl⟩ := List.forall₂_cons_left_iff.mp stand
    refine ⟨jump, ?_, same⟩
    rw [hexUnits, bind_ok (peek_word waiting here)]
    dsimp only
    rw [bind_ok run]
  | .alternation alternatives, s, rest, row, bound, sound, stand, waiting, enough => by
    rw [HexTree.words] at stand
    obtain ⟨opening, row', here, stand', rfl⟩ := List.forall₂_cons_left_iff.mp stand
    obtain ⟨inner, last, rfl, inside, closed⟩ := TokenStream.forall₂_parts stand'
    obtain ⟨closing, row'', close, none, rfl⟩ := List.forall₂_cons_left_iff.mp closed
    obtain rfl := List.forall₂_nil_left_iff.mp none
    cases sound with
    | alternation two filled each =>
      have size : inner.length ≤ bound := by
        simp only [List.length_cons, List.length_append, List.length_nil] at enough
        omega
      have taken : advance s = .ok (opening, s.leave (inner ++ closing :: rest)) := run_advance (by rw [waiting]; simp)
      have some : alternatives ≠ [] := by
        rintro rfl
        simp at two
      obtain ⟨us, run, same⟩ := @alternatives_run alternatives (s.leave (inner ++ closing :: rest))
        (closing :: rest) inner bound bound some filled
        each inside rfl size size ⟨closing, rest, _, rfl, close⟩
      have enough' : ¬us.length < 2 := by
        rw [← same, HexUnit.treesAmong_eq, List.length_map] at two
        exact Nat.not_lt.mpr two
      unfold hexAlternative at run
      refine ⟨.alternation opening us closing, ?_, by rw [HexUnit.tree]; exact congrArg _ same⟩
      rw [hexUnits, bind_ok (peek_word waiting here)]
      dsimp only
      rw [bind_ok taken, bind_ok run, if_neg enough',
        bind_ok (@expect_word ((s.leave (inner ++ closing :: rest)).leave
          (closing :: rest)) closing rest _ _ rfl close)]
      rfl

private theorem units_run : ∀ (units : List HexTree) {s : State} {rest row : List Handle}
    {bound : Nat}, (∀ unit ∈ units, unit.Sound) →
    List.Forall₂ (Stands s.source.tokens) (wordsAll units) row → s.source.rest = row ++ rest →
    row.length ≤ bound → Closed s rest →
    ∃ us, hexUnits bound s = .ok (us, s.leave rest) ∧ HexUnit.treesAll s.source.tokens us = units
  | [], s, rest, row, bound, _, stand, waiting, _, closed => by
    rw [wordsAll] at stand
    obtain rfl := List.forall₂_nil_left_iff.mp stand
    obtain rfl : s.source.rest = rest := waiting
    exact ⟨[], hexUnits_closed closed bound, by rw [HexUnit.treesAll]⟩
  | unit :: others, s, rest, row, bound, sound, stand, waiting, enough, closed => by
    rw [wordsAll] at stand
    obtain ⟨first, later, rfl, stand₁, stand₂⟩ := TokenStream.forall₂_parts stand
    have some : 0 < first.length := by
      rw [← stand₁.length_eq]
      exact List.length_pos_iff.mpr (words_some unit)
    rw [List.length_append] at enough
    obtain ⟨bound, rfl⟩ : ∃ n, bound = n + 1 := ⟨bound - 1, by omega⟩
    rw [List.append_assoc] at waiting
    obtain ⟨u, run, same⟩ :=
      @unit_run unit s (later ++ rest) first bound (sound unit (by simp)) stand₁ waiting (by omega)
    obtain ⟨us, run', same'⟩ := @units_run others (s.leave (later ++ rest)) rest later bound (fun other member =>
      sound other (by simp [member]))
      stand₂ rfl (by omega) closed
    refine ⟨u :: us, ?_, ?_⟩
    · rw [run, bind_ok run']
      rfl
    · rw [HexUnit.treesAll, same]
      exact congrArg _ same'

private theorem alternatives_run : ∀ (alternatives : List (List HexTree)) {s : State} {rest row : List Handle}
    {bound n : Nat}, alternatives ≠ [] →
    (∀ units ∈ alternatives, units ≠ []) → (∀ units ∈ alternatives, ∀ unit ∈ units, unit.Sound) →
    List.Forall₂ (Stands s.source.tokens) (wordsAmong false alternatives) row → s.source.rest = row ++ rest →
    row.length ≤ bound →
    row.length ≤ n → (∃ h more text, rest = h :: more ∧ Stands s.source.tokens (.hexAltClose, text) h) →
    ∃ us, separated .hexAltOr (hexAlternative bound) n s = .ok (us, s.leave rest) ∧
    HexUnit.treesAmong s.source.tokens us = alternatives
  | [], _, _, _, _, _, given, _, _, _, _, _, _, _ => absurd rfl given
  | units :: others, s, rest, row, bound, n, _, filled, sound, stand, waiting, enough, enough', closed => by
    rw [wordsAmong, if_neg (by decide), List.nil_append] at stand
    obtain ⟨first, later, rfl, stand₁, stand₂⟩ := TokenStream.forall₂_parts stand
    rw [List.append_assoc] at waiting
    rw [List.length_append] at enough enough'
    obtain ⟨here, filled⟩ := List.forall_mem_cons.mp filled
    obtain ⟨each, sound⟩ := List.forall_mem_cons.mp sound
    have size : 0 < first.length := by
      rw [← stand₁.length_eq]
      exact List.length_pos_iff.mpr (wordsAll_some here)
    obtain ⟨n, rfl⟩ : ∃ k, n = k + 1 := ⟨n - 1, by omega⟩
    have item (ends : Closed s (later ++ rest)) : ∃ us, hexAlternative bound s = .ok (us, s.leave (later ++ rest)) ∧
        HexUnit.treesAll s.source.tokens us = units := by
      obtain ⟨us, run, same⟩ := @units_run units s (later ++ rest) first bound each stand₁ waiting (by omega) ends
      have filled : ¬us.isEmpty = true := fun none => here (by rw [← same, List.isEmpty_iff.mp none, HexUnit.treesAll])
      refine ⟨us, ?_, same⟩
      unfold hexAlternative
      rw [bind_ok run, if_neg filled]
      rfl
    cases others with
    | nil =>
      rw [wordsAmong] at stand₂
      obtain rfl := List.forall₂_nil_left_iff.mp stand₂
      obtain ⟨h, more, text, rfl, stands⟩ := closed
      obtain ⟨us, run, same⟩ := item ⟨h, more, _, _, rfl, stands, by simp⟩
      have other := @accept_other (s.leave (h :: more)) h more _ .hexAltOr _ rfl stands (by decide)
      refine ⟨[us], ?_, by rw [HexUnit.treesAmong, HexUnit.treesAmong, same]⟩
      rw [separated, bind_ok run, List.nil_append, bind_ok other]
      rfl
    | cons next others =>
      rw [wordsAmong_bar] at stand₂
      obtain ⟨bar, later, mark, stand₃, rfl⟩ := List.forall₂_cons_left_iff.mp stand₂
      rw [List.length_cons] at enough enough'
      obtain ⟨us, run, same⟩ := item ⟨bar, later ++ rest, _, _, rfl, mark, by simp⟩
      obtain ⟨more, run', same'⟩ := @alternatives_run (next :: others) (s.leave (later ++ rest)) rest later bound n
        (by simp) filled sound
        stand₃ rfl (by omega) (by omega) closed
      have taken := @accept_word (s.leave (bar :: later ++ rest)) bar (later ++ rest) _ _ rfl mark
      refine ⟨us :: more, ?_, ?_⟩
      · rw [separated, bind_ok run, bind_ok taken]
        dsimp only
        rw [bind_ok (show separated .hexAltOr (hexAlternative bound) n
          ((s.leave (bar :: later ++ rest)).leave (later ++ rest)) = _ from run')]
        rfl
      · rw [HexUnit.treesAmong, same]
        exact congrArg _ same'

end

end

/-! ### Definitions -/

section

variable {s : State} {rest row : List Handle} {units : List HexTree}

/-- The hex string of a definition is read up to its closing brace. -/
theorem hexString_run (filled : units ≠ []) (sound : ∀ unit ∈ units, unit.Sound)
    (stand : List.Forall₂ (Stands s.source.tokens) (Lexer.stringWords units) row)
    (waiting : s.source.rest = row ++ rest) : ∃ string wanted, hexString s = .ok (string, (s.leave rest).onTokens
      (·.modify string.opening fun token => { token with breakAfter := token.breakAfter || wanted })) ∧
      string.opening ∈ row ∧ string.trees s.source.tokens = units := by
  obtain ⟨opening, later, here, stand', rfl⟩ := List.forall₂_cons_left_iff.mp stand
  obtain ⟨inner, last, rfl, inside, closed⟩ := TokenStream.forall₂_parts stand'
  obtain ⟨closing, _, close, none, rfl⟩ := List.forall₂_cons_left_iff.mp closed
  obtain rfl := List.forall₂_nil_left_iff.mp none
  have one := @expect_word s opening (inner ++ closing :: rest) _ _ (by rw [waiting]; simp) here
  have left : remaining (s.leave (inner ++ closing :: rest)) =
    .ok ((inner ++ closing :: rest).length, s.leave (inner ++ closing :: rest)) := rfl
  obtain ⟨us, run, same⟩ := @units_run units (s.leave (inner ++ closing :: rest)) (closing :: rest) inner
    (inner ++ closing :: rest).length sound
    inside rfl (by simp) ⟨closing, rest, _, _, rfl, close, by simp⟩
  have some : ¬us.isEmpty = true := fun none => filled (by rw [← same, List.isEmpty_iff.mp none, HexUnit.treesAll])
  have two := @expect_word ((s.leave (inner ++ closing :: rest)).leave (closing :: rest)) closing rest _ _ rfl close
  refine ⟨⟨opening, us, closing⟩, spansLines s.source.tokens opening closing, ?_, by simp, same⟩
  unfold hexString
  rw [bind_ok one, bind_ok left, bind_ok run, if_neg some]
  dsimp only
  rw [bind_ok two]
  rfl

theorem stringContent_run (filled : units ≠ []) (sound : ∀ unit ∈ units, unit.Sound)
    (stand : List.Forall₂ (Stands s.source.tokens) (Lexer.stringWords units) row)
    (waiting : s.source.rest = row ++ rest) :
    ∃ string wanted, stringContent s = .ok (.hex string, (s.leave rest).onTokens
      (·.modify string.opening fun token => { token with breakAfter := token.breakAfter || wanted })) ∧
      string.opening ∈ row ∧ string.trees (s.source.tokens.modify string.opening fun token =>
        { token with breakAfter := token.breakAfter || wanted }) = units := by
  obtain ⟨string, wanted, read, opening, same⟩ := hexString_run filled sound stand waiting
  refine ⟨string, wanted, ?_, opening, (HexUnit.treesAll_breaks _ _ _ _).trans same⟩
  obtain ⟨h, later, starts, _, rfl⟩ := List.forall₂_cons_left_iff.mp stand
  have peeked := @peek_word s h (later ++ rest) _ _ waiting starts
  unfold stringContent
  rw [bind_ok peeked]
  dsimp only
  rw [bind_ok read]
  rfl

/-- No word is a comment or a line break. -/
def Spoken (words : List (TokenKind × String)) : Prop := ∀ word ∈ words, word.1.isTrivia = false

theorem Spoken.nil : Spoken [] := List.forall_mem_nil _

theorem Spoken.one {word : TokenKind × String} (spoken : word.1.isTrivia = false) : Spoken [word] :=
  List.forall_mem_singleton.mpr spoken

theorem Spoken.append {front back : List (TokenKind × String)} (first : Spoken front) (second : Spoken back) :
    Spoken (front ++ back) :=
  fun word member => (List.mem_append.mp member).elim (first word) (second word)

theorem Spoken.cons {word : TokenKind × String} {words : List (TokenKind × String)} (first : word.1.isTrivia = false)
    (others : Spoken words) : Spoken (word :: words) := List.forall_mem_cons.mpr ⟨first, others⟩

mutual

private theorem words_spoken : ∀ unit : HexTree, Spoken unit.words
  | .byte _ => by
    rw [HexTree.words]
    exact .one rfl
  | .jump low ranged high => by
    have bound (b : Option JumpBound) : Spoken (boundWords b) := by
      cases b with
      | none => exact .nil
      | some b => exact .one rfl
    have dash : Spoken (if ranged then [(.dash, "-")] else []) := by
      cases ranged with
      | false => exact .nil
      | true => exact .one rfl
    rw [HexTree.words]
    exact .cons rfl ((bound low).append (dash.append ((bound high).append (.one rfl))))
  | .alternation alternatives => by
    rw [HexTree.words]
    exact .cons rfl ((wordsAmong_spoken false alternatives).append (.one rfl))

private theorem wordsAll_spoken : ∀ units : List HexTree, Spoken (wordsAll units)
  | [] => by
    rw [wordsAll]
    exact .nil
  | unit :: rest => by
    rw [wordsAll]
    exact (words_spoken unit).append (wordsAll_spoken rest)

private theorem wordsAmong_spoken (bar : Bool) :
    ∀ alternatives : List (List HexTree), Spoken (wordsAmong bar alternatives)
  | [] => by
    rw [wordsAmong]
    exact .nil
  | units :: rest => by
    have mark : Spoken (if bar then [(.hexAltOr, "|")] else []) := by
      cases bar with
      | false => exact .nil
      | true => exact .one rfl
    rw [wordsAmong]
    exact mark.append ((wordsAll_spoken units).append (wordsAmong_spoken true rest))

end

theorem definition_spoken (name : String) (units : List HexTree) : Spoken (Lexer.definitionWords name units) :=
  .cons rfl (.cons rfl (.cons rfl ((wordsAll_spoken units).append (.one rfl))))

/-- Tokens that were made of words stand for them. -/
theorem stand_of_made {x : TokenStream} {words : List (TokenKind × String)} {tokens : List Token}
    (made : List.Forall₂ Made words tokens) : ∀ {row : List Handle}, row.map x.get? = tokens.map some →
    List.Forall₂ (Stands x) words row := by
  induction made with
  | nil =>
    intro row same
    obtain rfl := List.map_eq_nil_iff.mp same
    exact .nil
  | cons first _ ih =>
    intro row same
    obtain ⟨h, later, rfl, stored, same'⟩ := List.map_eq_cons_iff.mp same
    exact .cons (stands_of_made stored first) (ih same')

theorem spoken_of_made {words : List (TokenKind × String)} {tokens : List Token} (made : List.Forall₂ Made words tokens)
    (spoken : Spoken words) : ∀ a ∈ tokens, a.kind.isTrivia = false := by
  intro a member
  obtain ⟨word, inside, location, result⟩ := mem_of_forall₂ made member
  rw [Lexer.makeToken_kind result]
  exact spoken word inside

private theorem stand_setKind {x : TokenStream} {words : List (TokenKind × String)} {h : Handle} (kind : TokenKind)
    (stand : List.Forall₂ (Stands x) words row) (apart : h ∉ row) :
    List.Forall₂ (Stands (x.setKind h kind)) words row := by
  induction stand with
  | nil => exact .nil
  | @cons word k words row first _ ih =>
    obtain ⟨other, others⟩ := List.ne_and_not_mem_of_not_mem_cons apart
    obtain ⟨a, stored, made⟩ := first
    exact .cons ⟨a, by rw [TokenStream.setKind, TokenStream.get?_modify, if_neg (Ne.symm other), stored], made⟩
      (ih others)

end

/-- With the text a string of this name is defined that has no modifiers, and the hex string says what the tree says. -/
def ReadsHex (name text : String) (units : List HexTree) : Prop :=
  ∀ settings tree id, ∃ source string hex s', sourceOf id none (Bytes.ofText (name ++ " = " ++ text)) = .ok source ∧
    stringDefinition (.first settings tree source (id + 1) []) = .ok (string, s') ∧ s'.source.rest = [] ∧
    s'.source.tokens.text string.id = name ∧ string.content = .hex hex ∧ string.modifiers = [] ∧
      hex.trees s'.source.tokens = units

/-- The tokens of a definition stand for its words. -/
theorem definition_stands {name : String} (valid : isStringIdentifier name = true) {units : List HexTree}
    (filled : units ≠ []) (sound : ∀ unit ∈ units, unit.Sound) (id : ChainId) :
    ∃ source, sourceOf id none (Bytes.ofText (name ++ " = " ++ stringText units)) = .ok source ∧
      source.rest.Nodup ∧ List.Forall₂ (Stands source.tokens) (Lexer.definitionWords name units) source.rest := by
  obtain ⟨tokens, lexed, made⟩ := @Lexer.lexed_definition none name valid units filled sound
  obtain ⟨source, laid⟩ := sourceOf_ok lexed id
  obtain ⟨distinct, row⟩ := sourceOf_row laid lexed (spoken_of_made made (definition_spoken name units))
  exact ⟨source, laid, distinct, stand_of_made made row⟩

theorem definition_readsHex {name : String} (valid : isStringIdentifier name = true) {units : List HexTree}
    (filled : units ≠ []) (sound : ∀ unit ∈ units, unit.Sound) : ReadsHex name (stringText units) units := by
  intro settings tree id
  obtain ⟨source, laid, distinct, stand⟩ := definition_stands valid filled sound id
  obtain ⟨k, later, named, stand, all⟩ := List.forall₂_cons_left_iff.mp stand
  rw [all] at distinct
  obtain ⟨apart, distinct⟩ := List.nodup_cons.mp distinct
  -- The name has its kind before the rest is read.
  obtain ⟨assign, row, mark, body, rfl⟩ := List.forall₂_cons_left_iff.mp (stand_setKind .stringDefinition stand apart)
  let s₀ := State.first settings tree source (id + 1) []
  let s₁ := (s₀.leave (assign :: row)).onTokens (·.setKind k .stringDefinition)
  have one := @expect_word s₀ k (assign :: row) _ _ all named
  have two : refine k .stringDefinition (s₀.leave (assign :: row)) = .ok ((), s₁) := rfl
  have three := @expect_word s₁ assign row _ _ rfl mark
  obtain ⟨hex, wanted, four, opening, same⟩ :=
    @stringContent_run (s₁.leave row) [] row units filled sound body (List.append_nil row).symm
  have other : k ≠ hex.opening := fun here => apart (here ▸ List.mem_cons_of_mem _ opening)
  let s₂ := (s₁.leave []).onTokens (·.modify hex.opening fun token =>
    { token with breakAfter := token.breakAfter || wanted })
  refine ⟨source, ⟨k, assign, .hex hex, []⟩, hex, s₂, laid, ?_, rfl, ?_, rfl, rfl, same⟩
  · unfold stringDefinition
    rw [bind_ok one, bind_ok two, bind_ok three, bind_ok four]
    rfl
  · obtain ⟨a, stored, _, location, result⟩ := named
    rw [Lexer.makeToken_hex (show TokenKind.stringName ∈ hexKinds by decide)] at result
    cases result
    have held : s₂.source.tokens.get? k = some { kind := .stringDefinition, location, literal := .ofWritten name } := by
      show ((source.tokens.setKind k .stringDefinition).modify hex.opening _).get? k = _
      rw [TokenStream.get?_modify, if_neg other, TokenStream.setKind, TokenStream.get?_modify, if_pos rfl, stored]
      rfl
    rw [TokenStream.text_eq _ held, TokenStream.textOf_plain]
    · rfl
    · rfl

end Grammar

end YaraRules
