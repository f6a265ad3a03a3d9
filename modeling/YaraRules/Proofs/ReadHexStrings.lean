import YaraRules.Proofs.JumpTokens
import YaraRules.Proofs.ReadRuleBounds

/-! Hex strings of rules that were read. The lexer made the tokens of a jump, and the parser looks at
every byte, jump and alternation, so the tree of a hex string that was read can be written. -/

namespace YaraRules.Grammar

open TokenStream (Plain)
open Lexer (Jumping IsNumber)

variable {l : Ledger} {roles : List Role} {others : List Handle} {s s' : State}

/-! ### Tokens that are still to be read -/

/-- Numbers in jumps have no unit, and no token is an alias. -/
def Waits (s : State) : Prop := s.source.rest.Nodup ∧
  ∃ words, s.source.rest.map s.source.tokens.get? = words.map some ∧ Jumping words ∧ ∀ a ∈ words, Plain a

theorem Waits.lasting : Lasting Waits := by
  rintro s s' given onward ⟨apart, words, row, jumping, plain⟩
  obtain ⟨_, split⟩ := onward.row_waiting apart
  obtain ⟨front, back, rfl, _, row⟩ := List.map_eq_append_iff.mp (row.symm.trans split)
  obtain ⟨taken, rest, _⟩ := onward.read
  rw [rest] at apart
  exact ⟨(List.nodup_append.mp apart).2.1, back, row.symm, jumping.suffix, fun a member =>
    plain a (List.mem_append_right _ member)⟩

theorem Waits.modify {h : Handle} (waits : Waits s) (read : h ∉ s.source.rest) (f : Token → Token) :
    Waits (s.onTokens (·.modify h f)) := by
  obtain ⟨apart, words, row, known⟩ := waits
  refine ⟨apart, words, Eq.trans (List.map_congr_left fun k member => ?_) row, known⟩
  show (s.source.tokens.modify h f).get? k = _
  rw [TokenStream.get?_modify, if_neg fun same : k = h => read (same ▸ member)]

/-- A token of the kind was read. -/
def State.Is (s : State) (kind : TokenKind) (h : Handle) : Prop := ∃ a, s.source.tokens.get? h = some a ∧ a.kind = kind

/-- Tokens of these kinds come first, and nothing was done but to read them. -/
structure Took (row : List (TokenKind × Handle)) (s s' : State) : Prop where
  rest : s.source.rest = row.map (·.2) ++ s'.source.rest
  left : s' = s.leave s'.source.rest
  kinds : ∀ word ∈ row, s.Is word.1 word.2

theorem Took.trans {row more : List (TokenKind × Handle)} {between : State} (first : Took row s between)
    (second : Took more between s') : Took (row ++ more) s s' := by
  obtain ⟨rest, left, kinds⟩ := first
  obtain ⟨rest', left', kinds'⟩ := second
  refine ⟨?_, ?_, List.forall_mem_append.mpr ⟨kinds, fun word member => ?_⟩⟩
  · rw [rest, rest', List.map_append, List.append_assoc]
  · rw [left', left]
    rfl
  · have found := kinds' word member
    rwa [left] at found

private theorem expect_took {kind : TokenKind} {h : Handle} (done : expect kind s = .ok (h, s')) :
    Took [(kind, h)] s s' := by
  obtain ⟨next, _, looked, run⟩ := bind_done done
  cases looked
  split_ifs at run with same
  · obtain ⟨rest, began, rfl⟩ := advance_done run
    refine ⟨began, rfl, fun k member => ?_⟩
    obtain rfl := List.mem_singleton.mp member
    simpa [State.Is, began] using same
  · exact absurd run (never_unexpected _ _ _ _)

private theorem accept_took {kind : TokenKind} {found : Option Handle} (done : accept? kind s = .ok (found, s')) :
    Took (found.toList.map (kind, ·)) s s' := by
  obtain ⟨next, _, looked, run⟩ := bind_done done
  cases looked
  split_ifs at run with same
  · obtain ⟨h, s₁, first, run⟩ := bind_done run
    cases run
    obtain ⟨rest, began, rfl⟩ := advance_done first
    refine ⟨began, rfl, fun k member => ?_⟩
    obtain rfl := List.mem_singleton.mp member
    simpa [State.Is, began] using same
  · cases run
    exact ⟨rfl, rfl, nofun⟩

/-! ### Hex strings -/

/-- Units were read that can be written. -/
def HexRead (units : List HexUnit) (s : State) : Prop :=
  (∀ tree ∈ HexUnit.treesAll s.source.tokens units, tree.Sound) ∧ ∀ h ∈ HexUnit.handlesAll units, Seen Plain h s

private theorem bound_same {h : Handle} (seen : Seen Plain h s)
    (same : s'.source.tokens.get? h = s.source.tokens.get? h) : HexUnit.Same s.source.tokens s'.source.tokens h := by
  obtain ⟨_, a, stored, plain⟩ := seen
  have stored' := same.trans stored
  rw [HexUnit.Same, HexUnit.bound, HexUnit.bound, text_shown stored plain, text_shown stored' plain,
    TokenStream.number?, TokenStream.number?, same]

theorem HexRead.lasting (units : List HexUnit) : Lasting (HexRead units) := by
  rintro s s' given onward ⟨sound, seen⟩
  refine ⟨?_, fun h member => Seen.lasting Plain h onward (seen h member)⟩
  rwa [HexUnit.treesAll_same units fun h member => bound_same (seen h member) (onward.get?_read (seen h member).1).2]

theorem HexRead.nil : HexRead [] s := by
  simp [HexRead, HexUnit.treesAll, HexUnit.handlesAll]

theorem HexRead.cons {unit : HexUnit} {units : List HexUnit} (first : HexRead [unit] s) (later : HexRead units s) :
    HexRead (unit :: units) s := by
  refine ⟨List.forall_mem_cons.mpr ⟨first.1 _ (List.mem_singleton_self _), later.1⟩, fun h member => ?_⟩
  rcases List.mem_append.mp (show h ∈ unit.handles ++ HexUnit.handlesAll units from member) with here | there
  · exact first.2 h (by simp [HexUnit.handlesAll, here])
  · exact later.2 h there

/-! ### Jumps -/

/-- A jump has a bound or a dash, an upper bound behind a dash only, and its bounds are in order where both
can be compared. -/
structure Jumped (tokens : TokenStream) (low dash high : Option Handle) : Prop where
  some : low = none → dash.isSome
  above : dash = none → high = none
  order : ∀ l h, integerAt? tokens low = .some l → integerAt? tokens high = .some h → ¬ h < l

private theorem jumpEnd_took {opening : Handle} {low dash high : Option Handle} {unit : HexUnit}
    (above : dash = none → high = none)
    (done : jumpEnd opening low dash high s = .ok (unit, s')) :
    ∃ closing, unit = .jump opening low dash high closing ∧ Took [(.hexJumpClose, closing)] s s' ∧
      Jumped s.source.tokens low dash high := by
  unfold jumpEnd at done
  dsimp only at done
  split_ifs at done with neither
  · obtain ⟨_, _, stopped, _⟩ := bind_done done
    exact absurd stopped (never_unexpected _ _ _ _)
  obtain ⟨closing, s₁, closed, run⟩ := bind_done done
  have took := expect_took closed
  obtain ⟨tokens, s₂, looked, run⟩ := bind_done run
  cases looked
  have same : s₁.source.tokens = s.source.tokens := by rw [took.left]; rfl
  have some : low = none → dash.isSome := by
    rintro rfl
    simpa [Option.isNone_iff_eq_none, ← Option.isSome_iff_ne_none] using neither
  obtain ⟨rfl, rfl, order⟩ := compared_done run
  exact ⟨closing, rfl, took, some, above, same ▸ order⟩

/-- Tokens of a jump. -/
def jumpRow (opening : Handle) (low dash high : Option Handle) (closing : Handle) : List (TokenKind × Handle) :=
  [(.hexJumpOpen, opening)] ++ (low.toList.map (.integer, ·) ++
    (dash.toList.map (.dash, ·) ++ (high.toList.map (.integer, ·) ++ [(.hexJumpClose, closing)])))

private theorem hexJump_took {unit : HexUnit} (done : hexJump s = .ok (unit, s')) :
    ∃ opening low dash high closing, unit = .jump opening low dash high closing ∧
    Took (jumpRow opening low dash high closing) s s' ∧ Jumped s.source.tokens low dash high := by
  obtain ⟨opening, s₁, opened, run⟩ := bind_done done
  obtain ⟨low, s₂, lower, run⟩ := bind_done run
  obtain ⟨dash, s₃, between, run⟩ := bind_done run
  have before := (expect_took opened).trans ((accept_took lower).trans (accept_took between))
  have same : s₃.source.tokens = s.source.tokens := by rw [before.left]; rfl
  cases dash with
  | none =>
    obtain ⟨closing, rfl, took, jumped⟩ := jumpEnd_took (fun _ => rfl) run
    refine ⟨opening, low, none, none, closing, rfl, ?_, same ▸ jumped⟩
    simpa [jumpRow] using before.trans took
  | some dash =>
    obtain ⟨high, s₄, upper, run⟩ := bind_done run
    have took' := accept_took upper
    have same' : s₄.source.tokens = s₃.source.tokens := by rw [took'.left]; rfl
    have above : some dash = none → high = none := nofun
    obtain ⟨closing, rfl, took, jumped⟩ := jumpEnd_took above run
    refine ⟨opening, low, some dash, high, closing, rfl, ?_, same ▸ same' ▸ jumped⟩
    simpa [jumpRow] using before.trans (took'.trans took)

/-! ### Units that can be written -/

theorem Waits.took {row : List (TokenKind × Handle)} (waits : Waits s) (took : Took row s s') :
    Waits s' ∧ ∀ word ∈ row, Seen Plain word.2 s' := by
  obtain ⟨apart, words, listed, jumping, plain⟩ := waits
  obtain ⟨rest, left, _⟩ := took
  have tokens : s'.source.tokens = s.source.tokens := by rw [left]; rfl
  rw [rest] at apart listed
  rw [List.map_append] at listed
  obtain ⟨front, back, rfl, stored, row'⟩ := List.map_eq_append_iff.mp listed.symm
  refine ⟨⟨(List.nodup_append.mp apart).2.1, back, tokens ▸ row'.symm, jumping.suffix, fun a member =>
    plain a (List.mem_append_right _ member)⟩, fun word member => ?_⟩
  have inside : word.2 ∈ row.map (·.2) := List.mem_map_of_mem member
  have own : s.source.tokens.get? word.2 ∈ front.map some := stored ▸ List.mem_map_of_mem inside
  obtain ⟨a, listed, same⟩ := List.mem_map.mp own
  exact ⟨fun later => List.disjoint_of_nodup_append apart inside later, a, tokens ▸ same.symm,
    plain a (List.mem_append_left _ listed)⟩

/-- A number in a jump is one without a unit. -/
theorem Waits.number {front inner back : List Handle} {h closing : Handle} (waits : Waits s)
    (rest : s.source.rest = front ++ h :: (inner ++ closing :: back)) (number : s.Is .integer h)
    (open_ : ∀ k ∈ inner, ¬ s.Is .hexJumpOpen k)
    (closes : s.Is .hexJumpClose closing) : (HexUnit.bound s.source.tokens h).Sound := by
  obtain ⟨_, words, listed, jumping, plain⟩ := waits
  rw [rest, List.map_append, List.map_cons, List.map_append, List.map_cons] at listed
  obtain ⟨front', back', rfl, _, listed⟩ := List.map_eq_append_iff.mp listed.symm
  obtain ⟨a, back', rfl, own, listed⟩ := List.map_eq_cons_iff.mp listed
  obtain ⟨inner', back', rfl, between, listed⟩ := List.map_eq_append_iff.mp listed
  obtain ⟨b, back', rfl, behind, _⟩ := List.map_eq_cons_iff.mp listed
  obtain ⟨c, stored, kind⟩ := number
  obtain rfl := Option.some.inj (own.trans stored)
  obtain ⟨d, stored', kind'⟩ := closes
  obtain rfl := Option.some.inj (behind.trans stored')
  have apart : ∀ e ∈ inner', e.kind ≠ .hexJumpOpen := fun e member opens => by
    have listed : some e ∈ inner.map s.source.tokens.get? := between ▸ List.mem_map_of_mem member
    obtain ⟨k, inside, same⟩ := List.mem_map.mp listed
    exact open_ k inside ⟨e, same, opens⟩
  obtain ⟨text, numeral, read⟩ := jumping.number kind apart kind'
  have same : s.source.tokens.text h = text := by
    rw [text_shown stored (plain a (by simp)), shown, kind]
    exact (Lexer.integerLiteral_text read).trans (toText_ofText text)
  refine ⟨?_, a.literal, ?_, ?_⟩
  · rwa [HexUnit.bound, same]
  · rwa [HexUnit.bound, same]
  · rw [HexUnit.bound, TokenStream.number?, stored]
    rfl

theorem Jumped.sound {tokens : TokenStream} {low dash high : Option Handle} (jumped : Jumped tokens low dash high)
    (below : ∀ k ∈ low, (HexUnit.bound tokens k).Sound) (above : ∀ k ∈ high, (HexUnit.bound tokens k).Sound) :
    (HexTree.jump (low.map (HexUnit.bound tokens)) dash.isSome (high.map (HexUnit.bound tokens))).Sound := by
  have each {h : Option Handle} (known : ∀ k ∈ h, (HexUnit.bound tokens k).Sound) :
      ∀ b ∈ h.map (HexUnit.bound tokens), b.Sound := by
    intro b member
    obtain ⟨k, inside, rfl⟩ := Option.map_eq_some_iff.mp member
    exact known k inside
  cases dash with
  | none =>
    obtain rfl := jumped.above rfl
    cases low with
    | none => cases jumped.some rfl
    | some low => exact .length (below low rfl)
  | some dash =>
    refine .range (each below) (each above) fun l first h second => ?_
    obtain ⟨low, rfl, rfl⟩ := Option.map_eq_some_iff.mp first
    obtain ⟨high, rfl, rfl⟩ := Option.map_eq_some_iff.mp second
    exact TokenStream.inOrder_of_compared jumped.order

private theorem hexJump_read : Ensures Waits hexJump fun unit s => HexRead [unit] s ∧ Waits s := by
  rintro s unit s' done waits
  obtain ⟨opening, low, dash, high, closing, rfl, took, jumped⟩ := hexJump_took done
  obtain ⟨waits', seen⟩ := waits.took took
  have tokens : s'.source.tokens = s.source.tokens := by rw [took.left]; rfl
  have closes : s.Is .hexJumpClose closing := took.kinds (.hexJumpClose, closing) (by simp [jumpRow])
  have other {kind : TokenKind} {k : Handle} (apart : kind ≠ .hexJumpOpen) (known : s.Is kind k) :
      ¬ s.Is .hexJumpOpen k := by
    rintro ⟨a, stored, opens⟩
    obtain ⟨b, stored', kind'⟩ := known
    obtain rfl := Option.some.inj (stored.symm.trans stored')
    exact apart (kind'.symm.trans opens)
  have above (k : Handle) (member : k ∈ high) : (HexUnit.bound s.source.tokens k).Sound := by
    obtain rfl := member
    have rest : s.source.rest = (opening :: (low.toList ++ dash.toList)) ++ k :: ([] ++ closing :: s'.source.rest) := by
      simpa [jumpRow, Function.comp_def] using took.rest
    exact waits.number rest (took.kinds (.integer, k) (by simp [jumpRow])) nofun closes
  have below (k : Handle) (member : k ∈ low) : (HexUnit.bound s.source.tokens k).Sound := by
    obtain rfl := member
    have rest : s.source.rest = [opening] ++ k :: ((dash.toList ++ high.toList) ++ closing :: s'.source.rest) := by
      simpa [jumpRow, Function.comp_def] using took.rest
    refine waits.number rest (took.kinds (.integer, k) (by simp [jumpRow])) (fun k member => ?_) closes
    rcases List.mem_append.mp member with dashed | upper
    · have kind : s.Is .dash k := took.kinds (.dash, k) (by simp [jumpRow, Option.mem_toList.mp dashed])
      exact other (by decide) kind
    · have kind : s.Is .integer k := took.kinds (.integer, k) (by simp [jumpRow, Option.mem_toList.mp upper])
      exact other (by decide) kind
  refine ⟨⟨fun tree member => ?_, fun h member => ?_⟩, waits'⟩
  · obtain rfl : tree = .jump (low.map (HexUnit.bound s.source.tokens)) dash.isSome
      (high.map (HexUnit.bound s.source.tokens)) := by
      simpa [HexUnit.treesAll, HexUnit.tree, tokens] using member
    exact jumped.sound below above
  · have inside : h ∈ (jumpRow opening low dash high closing).map (·.2) := by
      simpa [HexUnit.handlesAll, HexUnit.handles, jumpRow] using member
    obtain ⟨word, listed, rfl⟩ := List.mem_map.mp inside
    exact seen word listed

/-! ### Bytes and alternations -/

section

variable {α : Type} {step : Parse α} {given : α → List Handle} {holds : State → Prop}

private theorem beside_read {post : α → State → Prop} (lasting : Lasting holds) (calm : Calm [] step given)
    (ensures : Ensures Waits step post) : Ensures (fun s => holds s ∧ Waits s) step fun a s => holds s ∧ post a s :=
  Ensures.beside calm (fun _ _ _ => lasting) ensures

private theorem waits_pass (calm : Calm [] step given) : Ensures Waits step fun _ => Waits :=
  fun s a s' done => Waits.lasting (calm.onward s a s' done)

private theorem advance_read : Ensures Waits advance fun h s => Seen Plain h s ∧ Waits s := by
  intro s h s' done waits
  obtain ⟨rest, began, rfl⟩ := advance_done done
  obtain ⟨_, words, row, _⟩ := id waits
  rw [began] at row
  obtain ⟨a, _, _, stored, _⟩ := List.map_eq_cons_iff.mp row.symm
  have took : Took [(a.kind, h)] s (s.leave rest) := ⟨began, rfl, fun word member => by
    obtain rfl := List.mem_singleton.mp member
    exact ⟨a, stored.symm, rfl⟩⟩
  obtain ⟨waits', seen⟩ := waits.took took
  exact ⟨seen _ (List.mem_singleton_self _), waits'⟩

private theorem expect_read (kind : TokenKind) : Ensures Waits (expect kind) fun h s => Seen Plain h s ∧ Waits s :=
  .skip (fun _ => rfl) fun _ => .ite (fun _ => advance_read) fun _ => .never (never_unexpected _)

private theorem separated_read {separator : TokenKind} {item : Parse α} {known : α → State → Prop}
    (lasting : ∀ a, Lasting (known a))
    (calm : ∀ {free}, Calm free item fun _ => []) (each : Ensures Waits item fun a s => known a s ∧ Waits s) :
    ∀ bound, Ensures Waits (separated separator item bound) fun items s => (∀ a ∈ items, known a s) ∧ Waits s
  | 0 => .bind each fun a => .pure fun s ⟨first, waits⟩ => ⟨by simpa using first, waits⟩
  | bound + 1 =>
    .bind each fun a => .bind (beside_read (lasting a) (accept_calm _) (waits_pass (accept_calm _))) fun next => by
    cases next with
    | none => exact .pure fun s ⟨first, waits⟩ => ⟨by simpa using first, waits⟩
    | some _ =>
      refine .bind (beside_read (lasting a) (separated_calm calm bound).forget (separated_read lasting calm each bound))
        fun items => .pure ?_
      exact fun s ⟨first, later, waits⟩ => ⟨List.forall_mem_cons.mpr ⟨first, later⟩, waits⟩

end

theorem HexRead.byte {token : Handle} (seen : Seen Plain token s)
    (read : (HexByte.read? (s.source.tokens.text token)).isSome) : HexRead [.byte token] s := by
  refine ⟨fun tree member => ?_, fun h member => ?_⟩
  · obtain rfl : tree = .byte (s.source.tokens.text token) := by simpa [HexUnit.treesAll, HexUnit.tree] using member
    exact .byte read
  · obtain rfl : h = token := by simpa [HexUnit.handlesAll, HexUnit.handles] using member
    exact seen

theorem HexRead.alternation {opening closing : Handle} {alternatives : List (List HexUnit)}
    (opens : Seen Plain opening s) (closes : Seen Plain closing s) (two : 2 ≤ alternatives.length)
    (each : ∀ units ∈ alternatives, units ≠ [] ∧ HexRead units s) : HexRead
    [.alternation opening alternatives closing] s := by
  refine ⟨fun tree member => ?_, fun h member => ?_⟩
  · obtain rfl : tree = .alternation (alternatives.map (HexUnit.treesAll s.source.tokens)) := by
      simpa [HexUnit.treesAll, HexUnit.tree, HexUnit.treesAmong_eq] using member
    refine .alternation (by simpa using two) (fun trees inside => ?_) fun trees inside => ?_
    · obtain ⟨units, listed, rfl⟩ := List.mem_map.mp inside
      simpa [HexUnit.treesAll_eq] using (each units listed).1
    · obtain ⟨units, listed, rfl⟩ := List.mem_map.mp inside
      exact (each units listed).2.1
  · have inside : h = opening ∨ h ∈ HexUnit.handlesAmong alternatives ∨ h = closing := by
      simpa [HexUnit.handlesAll, HexUnit.handles] using member
    rcases inside with rfl | among | rfl
    · exact opens
    · obtain ⟨units, listed, own⟩ : ∃ units ∈ alternatives, h ∈ HexUnit.handlesAll units := by
        simpa [HexUnit.handlesAmong_eq] using among
      exact (each units listed).2.2 h own
    · exact closes

private theorem hexUnits_read : ∀ bound, Ensures Waits (hexUnits bound) fun units s => HexRead units s ∧ Waits s
  | 0 => .pure fun s waits => ⟨.nil, waits⟩
  | bound + 1 => by
    have more {unit : HexUnit} : Ensures (fun s => HexRead [unit] s ∧ Waits s)
      (do return unit :: (← hexUnits bound) : Parse (List HexUnit))
        fun units s => HexRead units s ∧ Waits s :=
      .bind (beside_read (HexRead.lasting [unit]) (hexUnits_calm bound) (hexUnits_read bound)) fun units => .pure
        fun s known => ⟨known.1.cons known.2.1, known.2.2⟩
    refine .skip (fun _ => rfl) fun next => ?_
    split
    · refine .bind advance_read fun token => .look (fun _ => rfl) fun text =>
        .ite (fun _ => .never ((never_fail _ _).bind _)) fun read => ?_
      refine .consider _ (fun s known => ?_) more
      obtain ⟨rfl, seen, waits⟩ := known
      exact ⟨.byte seen (Option.isSome_iff_ne_none.mpr (by simpa using read)), waits⟩
    · exact .bind hexJump_read fun jump => more
    · have alternative : Ensures Waits (do
          let units ← hexUnits bound
          if units.isEmpty then unexpected "hex byte" else return units) fun units s =>
            (units ≠ [] ∧ HexRead units s) ∧ Waits s :=
        .bind (hexUnits_read bound) fun units => .ite (fun _ => .never (never_unexpected _)) fun some => .pure
          fun s known => ⟨⟨by simpa using some, known.1⟩, known.2⟩
      have quiet {free : List Handle} : Calm free (do
          let units ← hexUnits bound
          if units.isEmpty then unexpected "hex byte" else return units) fun _ => [] :=
        .bind (hexUnits_calm bound) fun units => .ite (fun _ => .refuse (unexpected_refuses _)) fun _ => .pure (by simp)
      have lasting (units : List HexUnit) : Lasting fun s => units ≠ [] ∧ HexRead units s :=
        fun onward known => ⟨known.1, HexRead.lasting units onward known.2⟩
      refine .bind advance_read fun opening => ?_
      refine .bind (beside_read (Seen.lasting Plain opening) (separated_calm quiet bound).forget
        (separated_read lasting quiet alternative bound)) fun alternatives => ?_
      let inside (s : State) : Prop := Seen Plain opening s ∧ ∀ units ∈ alternatives, units ≠ [] ∧ HexRead units s
      have lastingInside : Lasting inside := fun onward known =>
        ⟨Seen.lasting Plain opening onward known.1, fun units member => lasting units onward (known.2 units member)⟩
      refine .ite (fun _ => .never ((never_unexpected _).bind _)) fun two => ?_
      refine .consider (fun s => inside s ∧ Waits s) (fun s known => ⟨⟨known.1, known.2.1⟩, known.2.2⟩) ?_
      refine .bind (beside_read lastingInside (expect_calm _) (expect_read _)) fun closing =>
        .consider _ (fun s known => ?_) more
      obtain ⟨⟨opens, each⟩, closes, waits⟩ := known
      exact ⟨.alternation opens closes (Nat.le_of_not_lt two) each, waits⟩
    · exact .pure fun s waits => ⟨.nil, waits⟩

/-! ### Strings -/

/-- A hex string was read that can be written. -/
def ContentRead (content : StringContent) (s : State) : Prop :=
  ∀ hex, content = .hex hex → hex.units ≠ [] ∧ HexRead hex.units s

theorem ContentRead.lasting (content : StringContent) : Lasting (ContentRead content) :=
  fun onward known hex same => ⟨(known hex same).1, HexRead.lasting hex.units onward (known hex same).2⟩

theorem HexRead.breaks {units : List HexUnit} (read : HexRead units s) (h : Handle) (wanted : Bool) :
    HexRead units (s.onTokens (·.modify h fun token => { token with breakAfter := token.breakAfter || wanted })) := by
  obtain ⟨sound, seen⟩ := read
  let f (token : Token) : Token := { token with breakAfter := token.breakAfter || wanted }
  refine ⟨?_, fun k member => ?_⟩
  · show ∀ tree ∈ HexUnit.treesAll (s.source.tokens.modify h f) units, tree.Sound
    rwa [HexUnit.treesAll_breaks]
  · obtain ⟨later, a, stored, plain⟩ := seen k member
    refine ⟨later, if k = h then f a else a, ?_, by split_ifs <;> exact plain⟩
    show (s.source.tokens.modify h f).get? k = _
    rw [TokenStream.get?_modify]
    split_ifs with here
    · rw [← here, stored]
      rfl
    · exact stored

private theorem hexString_read : Ensures Waits hexString fun hex s => hex.units ≠ [] ∧ HexRead hex.units s := by
  refine .bind (waits_pass (expect_calm _)) fun opening => .skip (fun _ => rfl) fun bound =>
    .bind (hexUnits_read bound) fun units => ?_
  refine .ite (fun _ => .never ((never_unexpected _).bind _)) fun some => ?_
  refine .bind (beside_read (HexRead.lasting units) (expect_calm _) (waits_pass (expect_calm _))) fun closing =>
    .skip (fun _ => rfl) fun tokens => ?_
  exact .bind (m := fun _ => HexRead units) (.modify fun s known => known.1.breaks opening _) fun _ => .pure
    fun s read => ⟨by simpa using some, read⟩

private theorem stringContent_read : Ensures Waits stringContent ContentRead := by
  refine .skip (fun _ => rfl) fun next => ?_
  split
  · exact .bind (waits_pass advance_calm) fun token => .bind (waits_pass (checkEscapes_calm token)) fun _ => .pure
      fun _ _ _ same => by cases same
  · refine .bind hexString_read fun hex => .pure fun s known other same => ?_
    cases same
    exact known
  · exact .bind (waits_pass advance_calm) fun token => .bind (waits_pass (readRegexp_calm token)) fun _ => .pure
      fun _ _ _ same => by cases same
  · exact .never (never_unexpected _)

private theorem stringDefinition_read : Ensures Waits stringDefinition fun string => ContentRead string.content := by
  refine .bind (expect_read _) fun id => .bind (m := fun _ => Waits) (.modify fun s known =>
    known.2.modify known.1.1 _) fun _ => ?_
  refine .bind (waits_pass (expect_calm _)) fun assign => .bind stringContent_read fun content =>
    .skip (fun _ => rfl) fun bound => ?_
  refine .bind (m := fun _ => ContentRead content) (fun s _ s' done read => ?_) fun modifiers => .pure
    fun _ read => read
  exact ContentRead.lasting content ((modifiers_calm content bound []).onward _ _ _ done) read

/-- All hex strings of the rule so far can be written. -/
def Hexed (s : State) : Prop := ∀ string ∈ s.strings.values, ContentRead string.content s

theorem Hexed.onward {given : List Handle} (hexed : Hexed s) (onward : Onward [] given s s')
    (strings : s'.strings = s.strings) : Hexed s' :=
  fun string member => ContentRead.lasting string.content onward (hexed string (strings ▸ member))

theorem Hexed.add {string : StringDefinition} (hexed : Hexed s) (read : ContentRead string.content s) (name : String) :
    Hexed { s with strings := s.strings.insertAgain name string } := by
  intro other member
  rw [NameTrie.values_insertAgain] at member
  rcases List.mem_append.mp member with old | new
  · exact hexed other old
  · obtain rfl := List.mem_singleton.mp new
    exact read

private theorem addString_hexed : Ensures (fun s => (Hexed s ∧ Waits s) ∧ Stocked l roles others s) addString fun _ s =>
    (Hexed s ∧ Waits s) ∧ Stocked l roles others s := by
  rintro s u s' done ⟨⟨hexed, waits⟩, stocked⟩
  refine ⟨⟨?_, Waits.lasting (addString_calm.onward s u s' done) waits⟩, addString_stocks s u s' done stocked⟩
  obtain ⟨strings, link⟩ := stocked
  obtain ⟨string, s₁, read, run⟩ := bind_done done
  have link₁ := stringDefinition_links.gives s string s₁ read link
  have hexed₁ := hexed.onward (stringDefinition_calm.onward s string s₁ read) (link₁.strings.trans link.strings.symm)
  have content := stringDefinition_read s string s₁ read waits
  suffices rest : Ensures (fun s => ContentRead string.content s ∧ Hexed s) _ fun _ => Hexed
    from rest s₁ u s' run ⟨content, hexed₁⟩
  refine .skip (fun _ => rfl) fun id => .bind .get fun st => .ite (fun bare => .modify ?_) fun _ => ?_
  · rintro s ⟨rfl, content, hexed⟩
    exact hexed.add content id
  · unfold NameTrie.insert?
    split
    next strings' found =>
      split_ifs at found with taken
      cases found
      refine .modify ?_
      rintro s ⟨rfl, content, hexed⟩
      exact hexed.add content id
    next => exact .never (never_fail _ _)

private theorem addStrings_hexed {starts : TokenKind → Bool} :
    ∀ bound, Ensures (fun s => (Hexed s ∧ Waits s) ∧ Stocked l roles others s)
    (itemsWhile starts addString bound) fun _ s => (Hexed s ∧ Waits s) ∧ Stocked l roles others s
  | 0 => .pure fun _ known => known
  | bound + 1 => by
    refine .skip (fun _ => rfl) fun next => .ite (fun _ => .bind addString_hexed fun _ => ?_) fun _ => .pure
      fun _ known => known
    exact .bind (addStrings_hexed bound) fun _ => .pure fun _ known => known

private theorem optionalStrings_hexed (none : l.strings.values = []) : Ensures (fun s => Waits s ∧
    Linking l roles others s) stringSection? fun _ s => Hexed s ∧ Stocked l roles others s := by
  have start (s : State) (known : Waits s ∧ Linking l roles others s) :
      (Hexed s ∧ Waits s) ∧ Stocked l roles others s :=
    ⟨⟨fun string member => by simp [known.2.strings, none] at member, known.1⟩, l.strings,
      by simpa [none] using known.2⟩
  have expected (kind : TokenKind) : Ensures (fun s => Waits s ∧ Linking l roles others s) (expect kind) fun _ s =>
      Waits s ∧ Linking l roles others s := .beside (expect_calm _) (fun _ _ _ => Waits.lasting) (expect_links _).passes
  have ended {s : State} (known : (Hexed s ∧ Waits s) ∧ Stocked l roles others s) :
    Hexed s ∧ Stocked l roles others s := ⟨known.1.1, known.2⟩
  refine .skip (fun _ => rfl) fun next => .ite (fun _ => .bind ?_ fun _ => .pure fun _ known => known) fun _ => .pure
    fun s known => ended (start s known)
  refine .bind (expected _) fun keyword => .bind (expected _) fun colon => ?_
  refine .skip (fun _ => rfl) fun _ => .guard (never_unexpected _) (.skip (fun _ => rfl) fun bound => ?_)
  exact .consider _ start (.bind (addStrings_hexed bound) fun _ => .pure fun _ known => ended known)

/-! ### Rules -/

private theorem ruleHead_hexed : Ensures (fun s => Waits s ∧ Linking l roles others s) ruleHead fun _ => Hexed := by
  refine .skip (fun _ => rfl) fun bound => ?_
  refine .bind (.beside (ruleModifiers_calm bound []) (fun _ _ _ => Waits.lasting)
    (ruleModifiers_links bound []).passes) fun modifiers => ?_
  refine .bind (.beside (expect_calm _) (fun _ _ _ => Waits.lasting) (expect_links _).passes) fun keyword => ?_
  refine .consider (fun s => After Waits [] s ∧ Linking l roles others s) (fun s known => ⟨.start known.1, known.2⟩) ?_
  refine .bind (After.step (expect_calm _) (expect_ensures _)) fun name => ?_
  refine .bind (After.step (refine_calm _ (by simp)) (modify_ensures fun _ own => own)) fun _ => ?_
  refine .skip (fun _ => rfl) fun text => .skip (fun _ => rfl)
    fun _ => .ite (fun _ => .never (.bind (never_fail _ _) _)) fun _ => ?_
  refine .consider (fun s => Waits s ∧ Linking l roles others s)
    (fun s known => ⟨known.1.now Waits.lasting, known.2.fewer (List.sublist_cons_self _ _)⟩) ?_
  refine .bind (.beside tags_calm (fun _ _ _ => Waits.lasting) tags_links.passes) fun (tagColon, tags) => ?_
  refine .consider (fun s => After Waits [] s ∧ Linking l roles others s) (fun s known => ⟨.start known.1, known.2⟩) ?_
  refine .bind (After.step (expect_calm _) (expect_ensures _)) fun opening => ?_
  refine .bind (After.step (refine_calm _ (by simp)) (modify_ensures fun _ own => own)) fun _ => ?_
  refine .bind (m := fun _ s => Waits s ∧ Linking { l with strings := {} } roles others s)
    (.modify fun s known => ?_) fun _ => ?_
  · obtain ⟨after, link⟩ := known
    exact ⟨after.now Waits.lasting, (link.fewer (List.sublist_cons_self opening others)).restock
      (t := { s with strings := {}, scopes := [], stringLoops := 0 }) rfl rfl rfl rfl nofun⟩
  refine .bind (m := fun _ s => Waits s ∧ Linking { l with strings := {} } roles others s) (fun s found s' done known =>
    ⟨Waits.lasting (optionalMetas_calm.onward s found s' done known.2) known.1,
      optionalMetas_links.passes s found s' done known.2⟩)
    fun (metaSection, metas) => ?_
  have expected (kind : TokenKind) : Ensures (fun s => Hexed s ∧ Stocked { l with strings := {} } roles others s)
    (expect kind) fun _ s =>
      Hexed s ∧ Stocked { l with strings := {} } roles others s := by
    rintro s h s' done ⟨hexed, strings, link⟩
    have link' := (expect_links kind).passes s h s' done link
    exact ⟨hexed.onward ((expect_calm kind).onward s h s' done) (link'.strings.trans link.strings.symm), strings, link'⟩
  refine .bind (optionalStrings_hexed rfl) fun stringSection => .bind (expected _) fun keyword' =>
    .bind (expected _) fun colon => ?_
  exact .pure fun s known => known.1

private theorem rule_hexed {rule : Rule} (link : Linking l roles [] s) (waits : Waits s)
    (done : Grammar.rule s = .ok (rule, s')) : ∀ string ∈ rule.strings.values, ContentRead string.content s' := by
  obtain ⟨head, s₁, began, run⟩ := bind_done done
  obtain ⟨condition, s₂, read, run⟩ := bind_done run
  have hexed := ruleHead_hexed s head s₁ began ⟨waits, link⟩
  obtain ⟨_, _, strings, link₁⟩ := ruleHead_names s head s₁ began link
  have link₂ := condition_links.gives s₁ condition s₂ read link₁
  obtain ⟨_, _, _, _, _, _, _, held⟩ := ruleTail_formed head condition s₂ rule s' run link₂.strings
  have onward : Onward [] [] s₁ s' :=
    (condition_calm.forget.onward s₁ condition s₂ read).trans
      ((ruleTail_calm (fun _ _ => List.nil_subset _) condition).onward s₂ rule s' run)
  have kept : rule.strings = s₁.strings := held.trans link₁.strings.symm
  exact fun string member => ContentRead.lasting string.content onward (hexed string (kept ▸ member))

/-! ### Files -/

/-- The last words of a text. -/
def LastWords (row : List (Option Token)) : Prop := ∃ path content tokens, Lexer.tokens path content = .ok tokens ∧
  row <:+ (tokens.filter fun a => !a.kind.isTrivia).map some

theorem LastWords.suffix {front back : List (Option Token)} (last : LastWords (front ++ back)) : LastWords back := by
  obtain ⟨path, content, tokens, lexed, ends⟩ := last
  exact ⟨path, content, tokens, lexed, (List.suffix_append front back).trans ends⟩

private theorem sourceOf_lastWords {id : ChainId} {path : Option String} {content : Bytes} {source : Source}
    (done : sourceOf id path content = .ok source) : LastWords (source.rest.map source.tokens.get?) :=
  ⟨path, content, _, sourceOf_tokens done, sourceOf_rest done ▸ List.suffix_refl _⟩

theorem LastWords.waits (ahead : s.Ahead LastWords) (link : Linking l roles [] s) : Waits s := by
  obtain ⟨path, content, tokens, lexed, front, split⟩ := ahead
  obtain ⟨early, late, whole, _, row⟩ := List.map_eq_append_iff.mp split.symm
  have jumping : Jumping (early ++ late) := whole ▸ (Lexer.tokensFrom_jumping _ _ _ lexed).words
  refine ⟨link.unread_nodup, late, row.symm, jumping.suffix, fun a member => ?_⟩
  have listed : some a ∈ s.source.rest.map s.source.tokens.get? := row ▸ List.mem_map_of_mem member
  obtain ⟨h, waiting, stored⟩ := List.mem_map.mp listed
  obtain ⟨b, stored', plain⟩ := (link.loose h waiting).plain
  exact Option.some.inj (stored'.symm.trans stored) ▸ plain

/-- A hex string that was read says the same while reading goes forth. -/
theorem Forth.trees {hex : HexString} (forth : Forth s s') (read : ∀ h ∈ HexUnit.handlesAll hex.units, s.HasRead h) :
    hex.trees s'.source.tokens = hex.trees s.source.tokens := by
  refine HexUnit.treesAll_same hex.units fun h member => ?_
  rw [HexUnit.Same, HexUnit.bound, HexUnit.bound, forth.text h (read h member), TokenStream.number?,
    TokenStream.number?, forth.same h (read h member)]

end YaraRules.Grammar

namespace YaraRules.RuleFile.Read

variable {file : RuleFile} {rule : Rule} {string : StringDefinition} {hex : HexString}

/-- Hex strings of a file that was read can be written. -/
theorem hexed (read : file.Read) (member : rule ∈ file.rules) (listed : string ∈ rule.strings.values)
    (same : string.content = .hex hex) : hex.units ≠ [] ∧ ∀ tree ∈ hex.trees file.tokens, tree.Sound := by
  obtain ⟨_, _, _, _, _, _, _, lexed, done⟩ := read.lexed
  refine Grammar.readSource_each_lexed Grammar.LastWords Grammar.LastWords.suffix (fun rule tokens =>
    ∀ string ∈ rule.strings.values, ∀ hex, string.content = .hex hex → hex.units ≠ [] ∧ ∀ tree ∈
      hex.trees tokens, tree.Sound)
    (Grammar.sourceOf_fresh lexed) (Grammar.sourceOf_untouched lexed)
      (Grammar.sourceOf_lastWords lexed) done Grammar.sourceOf_lastWords
    (fun link _ ahead run string member hex same => ?_) (fun forth known sound string member hex same =>
      ?_) rule member string listed hex same
  · obtain ⟨some, sound, _⟩ := Grammar.rule_hexed link (Grammar.LastWords.waits ahead link) run string member hex same
    exact ⟨some, sound⟩
  · obtain ⟨some, trees⟩ := sound string member hex same
    refine ⟨some, forth.trees (fun h inside => known h (Rule.content_row member (same ▸ ?_))) ▸ trees⟩
    simp [StringContent.handles, HexString.handles, inside]

end YaraRules.RuleFile.Read
