import YaraRules.Proofs.BlockComments
import YaraRules.Proofs.HexReadings

/-! Comments in hex strings. Behind a comment the lexer goes on as it does without it, and the
grammar, which reads no comments, makes the same units of the words on both sides. -/

namespace YaraRules

open TokenStream (Plain)

namespace Lexer

variable {file : Option String} {s s' t : State} {a b : Token} {words : List Token} {front comment behind : Bytes}

/-! ### The same words at other places -/

/-- The tokens differ in nothing but their places. -/
structure Look (a b : Token) : Prop where
  kind : b.kind = a.kind
  literal : b.literal = a.literal

theorem Look.symm (look : Look a b) : Look b a := ⟨look.kind.symm, look.literal.symm⟩

/-- The same is left to be lexed, at another place. -/
structure State.Elsewhere (s t : State) : Prop where
  rest : t.rest = s.rest
  mode : t.mode = s.mode
  last : t.last = s.last

/-- Steps that do the same at different places. -/
inductive Step.Alike : Step → Step → Prop
  | skipped {s t : State} (same : s.Elsewhere t) : Alike (.skipped s) (.skipped t)
  | found {a b : Token} {s t : State} (look : Look a b) (same : s.Elsewhere t) : Alike (.found a s) (.found b t)
  | failed {e e' : ParseError} : Alike (.failed e) (.failed e')

/-- Words that were found on both sides, or problems on both. -/
inductive Likewise : Except ParseError (List Token) → Except ParseError (List Token) → Prop
  | ok {words words' : List Token} (looks : List.Forall₂ Look words words') : Likewise (.ok words) (.ok words')
  | error {e e' : ParseError} : Likewise (.error e) (.error e')

private theorem makeToken_elsewhere (kind : TokenKind) (bytes : Bytes) (here there : Location) :
    (∃ a b, makeToken kind bytes here = .ok a ∧ makeToken kind bytes there = .ok b ∧ Look a b) ∨
      ∃ e e', makeToken kind bytes here = .error e ∧ makeToken kind bytes there = .error e' := by
  unfold makeToken
  split
  case h_2 =>
    cases integerLiteral? bytes with
    | none => exact .inr ⟨_, _, rfl, rfl⟩
    | some literal => exact .inl ⟨_, _, rfl, rfl, rfl, rfl⟩
  all_goals exact .inl ⟨_, _, rfl, rfl, rfl, rfl⟩

private theorem step_elsewhere (same : s.Elsewhere t) : (step file s).Alike (step file t) := by
  obtain ⟨rest, mode, position, last⟩ := s
  obtain ⟨rest', mode', position', last'⟩ := t
  obtain ⟨rfl, rfl, rfl⟩ : rest' = rest ∧ mode' = mode ∧ last' = last := ⟨same.rest, same.mode, same.last⟩
  unfold step
  dsimp only
  rcases lexemeOutwards mode' rest' with ⟨inner, none | ⟨blank | kind, length⟩⟩
  · exact .failed
  · exact .skipped ⟨rfl, rfl, rfl⟩
  · dsimp only
    generalize (if kind == .openBrace && last' == some .assign then TokenKind.hexStart else kind) = role
    rcases makeToken_elsewhere role (rest'.take length) (locate file position (rest'.take length)).1
      (locate file position' (rest'.take length)).1 with ⟨a, b, made, made', look⟩ | ⟨e, e', failed, failed'⟩
    · rw [made, made']
      exact .found look ⟨rfl, rfl, rfl⟩
    · rw [failed, failed']
      exact .failed

theorem Likewise.cons {x y : Except ParseError (List Token)} (look : Look a b) (same : Likewise x y) :
    Likewise (do return a :: (← x)) (do return b :: (← y)) := by
  cases same with
  | ok looks => exact .ok (.cons look looks)
  | error => exact .error

private theorem tokensFrom_elsewhere : ∀ (fuel : Nat) {s t : State}, s.Elsewhere t → Likewise (tokensFrom file fuel s)
    (tokensFrom file fuel t)
  | 0, _, _, _ => .ok .nil
  | fuel + 1, s, t, same => by
    rw [tokensFrom, tokensFrom, same.rest]
    split_ifs
    · exact .ok .nil
    · have steps := @step_elsewhere file s t same
      generalize step file s = one at steps
      generalize step file t = two at steps
      cases steps with
      | skipped same => exact tokensFrom_elsewhere fuel same
      | found look same => exact (tokensFrom_elsewhere fuel same).cons look
      | failed => exact .error

private theorem lexed_elsewhere (same : s.Elsewhere t) : Likewise (lexed file s) (lexed file t) := by
  rw [lexed, lexed, same.rest]
  exact tokensFrom_elsewhere _ same

/-! ### Texts with a comment and without it -/

private theorem skipped_last (passed : step file s = .skipped s') : s'.last = s.last := by
  unfold step at passed
  split at passed
  · cases passed
    rfl
  · dsimp only at passed
    split at passed <;> cases passed
  · cases passed

private theorem found_last (found : step file s = .found a s') :
    s'.last = if a.kind.isTrivia then s.last else some a.kind := by
  unfold step at found
  split at found
  · cases found
  · dsimp only at found
    split at found
    next token made =>
      cases found
      rw [makeToken_kind made]
    · cases found
  · cases found

/-- The lexer gets from one state to another over some words. -/
inductive Gets (file : Option String) : State → List Token → State → Prop
  | here {s : State} : Gets file s [] s
  | blank {s between s' : State} {words : List Token} (passed : step file s = .skipped between)
      (later : Gets file between words s') :
      Gets file s words s'
  | next {s between s' : State} {a : Token} {words : List Token} (found : step file s = .found a between)
      (later : Gets file between words s') : Gets file s (a :: words) s'

theorem Gets.lexed (gets : Gets file s words s') : lexed file s = (lexed file s').map (words ++ ·) := by
  induction gets with
  | here => cases found : Lexer.lexed file _ <;> rfl
  | blank passed _ ih => rw [lexed_skipped passed, ih]
  | @next s between s' a words found _ ih =>
    rw [lexed_found found, ih]
    cases Lexer.lexed file s' <;> rfl

/-- The kind of the last word that is no comment and no line break. -/
def lastKind (last : Option TokenKind) (words : List Token) : Option TokenKind :=
  words.foldl (fun last a => if a.kind.isTrivia then last else some a.kind) last

theorem Gets.last (gets : Gets file s words s') : s'.last = lastKind s.last words := by
  induction gets with
  | here => rfl
  | blank passed _ ih => rw [ih, skipped_last passed]
  | next found _ ih => rw [ih, found_last found]; rfl

private theorem lastKind_looks {words words' : List Token} (looks : List.Forall₂ Look words words')
    (last : Option TokenKind) : lastKind last words' = lastKind last words := by
  induction looks generalizing last with
  | nil => rfl
  | @cons a b _ _ look _ ih =>
    unfold lastKind at ih ⊢
    rw [List.foldl_cons, List.foldl_cons, look.kind, ih]

/-- The first text has no comment where the second has one, between two words of a hex string, and
the lexer comes to this place over the same words. -/
structure Inserted (file : Option String) (front comment behind : Bytes) : Prop where
  front : ∃ words words' s t, List.Forall₂ Look words words' ∧ Gets file { rest := front ++ behind } words s ∧
    s.At .hexPattern behind ∧
    Gets file { rest := front ++ (comment ++ behind) } words' t ∧ t.At .hexPattern (comment ++ behind)
  comment : lexeme? .hexPattern (comment ++ behind) = some (.token .blockComment, comment.length)

/-- The lexer gets over the front of a definition, up to the first byte of its hex string. -/
theorem definition_gets (file : Option String) {name text : String} (valid : isStringIdentifier name = true)
    (read : (HexByte.read? text).isSome)
    (rest : Bytes) : ∃ tokens s, Gets file { rest := Bytes.ofText (name ++ " = \x7b " ++ text) ++ rest } tokens s ∧
    s.At .hexPattern rest ∧
      List.Forall₂ Made [(.stringName, name), (.assign, "="), (.hexStart, "\x7b"), (.hexByte, text)] tokens := by
  have start : State.At { rest := Bytes.ofText (name ++ " = \x7b " ++ text) ++ rest } .normal
      (Bytes.ofText name ++ 0x20 :: (Bytes.ofText "=" ++ 0x20 ::
        (Bytes.ofText "\x7b" ++ 0x20 :: (Bytes.ofText text ++ rest)))) := by
    refine ⟨?_, rfl⟩
    rw [ofText_append, ofText_append, List.append_assoc, List.append_assoc]
    rfl
  have black : ∀ b ∈ (Bytes.ofText text ++ rest).head?, isWhite b = false := by
    obtain ⟨a, b, one, _, bytes | bytes⟩ := byte_encode read
    · rw [bytes]
      rintro _ ⟨⟩
      exact (lexeme_hexLead (.inl one) []).1
    · rw [bytes]
      rintro _ ⟨⟩
      rfl
  obtain ⟨a₁, s₁, made₁, here₁, _, step₁⟩ :=
    @step_hex _ _ .stringName file _ _ _ (by decide) start (lexeme_stringName valid (loose_blank _)) rfl
  obtain ⟨s₂, here₂, _, step₂⟩ := step_blank file here₁ (lexeme_blank (by rintro _ ⟨⟩; rfl))
  obtain ⟨a₃, s₃, made₃, here₃, last₃, step₃⟩ :=
    @step_hex _ _ .assign file _ _ _ (by decide) here₂ (lexeme_assign (loose_blank _)) rfl
  obtain ⟨s₄, here₄, last₄, step₄⟩ := step_blank file here₃ (lexeme_blank (by rintro _ ⟨⟩; rfl))
  obtain ⟨a₅, s₅, made₅, here₅, _, step₅⟩ :=
    @step_hex _ _ .hexStart file _ _ _ (by decide) here₄ (lexeme_brace _) (by rw [last₄, last₃]; rfl)
  obtain ⟨s₆, here₆, _, step₆⟩ := step_blank file here₅ (lexeme_hexBlank black)
  obtain ⟨a₇, s₇, made₇, here₇, _, step₇⟩ :=
    @step_hex _ _ .hexByte file _ _ _ (by decide) here₆ (lexeme_hexByte read rest) rfl
  exact ⟨_, s₇, .next step₁ (.blank step₂ (.next step₃ (.blank step₄ (.next step₅
    (.blank step₆ (.next step₇ .here)))))), here₇, .cons made₁ (.cons made₃ (.cons made₅ (.cons made₇ .nil)))⟩

private theorem looks_of_made {spoken : List (TokenKind × String)} {words words' : List Token}
    (made : List.Forall₂ Made spoken words) : List.Forall₂ Made spoken words' → List.Forall₂ Look words words' := by
  induction made generalizing words' with
  | nil =>
    rintro ⟨⟩
    exact .nil
  | cons first _ ih =>
    rintro (_ | ⟨first', later'⟩)
    obtain ⟨here, made⟩ := first
    obtain ⟨there, made'⟩ := first'
    rcases makeToken_elsewhere _ _ here there with ⟨_, _, one, two, look⟩ | ⟨_, _, failed, _⟩
    · obtain rfl := Except.ok.inj (made.symm.trans one)
      obtain rfl := Except.ok.inj (made'.symm.trans two)
      exact .cons look (ih later')
    · cases made.symm.trans failed

/-- Words that the grammar reads. -/
def spoken (words : List Token) : List Token := words.filter fun a => !a.kind.isTrivia

private theorem spoken_looks {words words' : List Token} (looks : List.Forall₂ Look words words') :
    List.Forall₂ Look (spoken words) (spoken words') :=
  List.rel_filter (fun a b look => by simp [look.kind]) looks

/-- A comment is one word that the grammar does not read, and behind it everything is as before. -/
theorem lexed_comment (left : t.At .hexPattern (comment ++ behind))
    (here : lexeme? .hexPattern (comment ++ behind) = some (.token .blockComment, comment.length)) : ∃ a t',
    lexed file t = (lexed file t').map (a :: ·) ∧ a.kind.isTrivia = true ∧ t'.At .hexPattern behind ∧
    t'.last = t.last := by
  have taken := @step_at file t _ comment behind .blockComment .hexPattern .blockComment left here rfl rfl
  exact ⟨_, _, lexed_found taken, rfl, ⟨rfl, rfl⟩, rfl⟩

private theorem Inserted.likewise (inserted : Inserted file front comment behind) :
    Likewise ((tokens file (front ++ behind)).map spoken)
    ((tokens file (front ++ (comment ++ behind))).map spoken) := by
  obtain ⟨⟨words, words', s, t, looks, gets, left, gets', left'⟩, here⟩ := inserted
  obtain ⟨a, t', whole, passed, behind', last'⟩ := @lexed_comment file t comment behind left' here
  have last : t.last = s.last := by rw [gets.last, gets'.last, lastKind_looks looks]
  have later : Likewise (lexed file s) (lexed file t') :=
    lexed_elsewhere ⟨behind'.rest.trans left.rest.symm, behind'.mode.trans left.mode.symm, last'.trans last⟩
  show Likewise ((lexed file { rest := front ++ behind }).map spoken)
    ((lexed file { rest := front ++ (comment ++ behind) }).map spoken)
  rw [gets.lexed, gets'.lexed, whole]
  generalize lexed file s = first at later
  generalize lexed file t' = second at later
  cases later with
  | error => exact .error
  | ok same =>
    refine .ok ?_
    simp only [spoken, List.filter_append, List.filter_cons, passed]
    exact List.rel_append (spoken_looks looks) (spoken_looks same)

end Lexer

namespace Grammar

open HexTree
open Lexer (Look)

variable {α β : Type} {x y : TokenStream} {s t : State}

/-! ### Reading the same units -/

/-- A word of one stream looks like a word of the other, and neither is an alias. -/
def Resembles (x y : TokenStream) (h k : Handle) : Prop :=
  ∃ a b, x.get? h = some a ∧ y.get? k = some b ∧ Look a b ∧ Plain a

/-- The words that are left to be read resemble one another. -/
structure Beside (x y : TokenStream) (s t : State) : Prop where
  first : s.source.tokens = x
  second : t.source.tokens = y
  rest : List.Forall₂ (Resembles x y) s.source.rest t.source.rest

theorem Resembles.bound {h k : Handle} (same : Resembles x y h k) : HexUnit.bound y k = HexUnit.bound x h := by
  obtain ⟨a, b, stored, stored', ⟨kind, literal⟩, plain⟩ := same
  have plain' : Plain b := by rw [Plain, literal]; exact plain
  rw [HexUnit.bound, HexUnit.bound, TokenStream.text_eq x stored, TokenStream.text_eq y stored',
    TokenStream.textOf_plain x plain, TokenStream.textOf_plain y plain', kind, literal, TokenStream.number?,
    TokenStream.number?, stored, stored', Option.bind_some, Option.bind_some, literal]

namespace Beside

variable {post : α → β → State → State → Prop}

theorem peek (beside : Beside x y s t) {f : Option TokenKind → Parse α} {g : Option TokenKind → Parse β}
    (next : ∀ kind, Follows (f kind) (g kind) s t post) : Follows (peek? >>= f) (peek? >>= g) s t post := by
  have same : (t.source.rest[0]?.bind t.source.tokens.get?).map (·.kind) =
      (s.source.rest[0]?.bind s.source.tokens.get?).map (·.kind) := by
    obtain ⟨rfl, rfl, rest⟩ := beside
    generalize s.source.rest = row at rest
    generalize t.source.rest = row' at rest
    cases rest with
    | nil => rfl
    | cons first _ =>
      obtain ⟨a, b, stored, stored', look, _⟩ := first
      simp [stored, stored', look.kind]
  exact .step (run_peekAt 0 s) (same ▸ run_peekAt 0 t) (next _)

theorem advance (beside : Beside x y s t) {f : Handle → Parse α} {g : Handle → Parse β}
    (next : ∀ h k s' t', Beside x y s' t' → Resembles x y h k → Follows (f h) (g k) s' t' post) :
    Follows (Grammar.advance >>= f) (Grammar.advance >>= g) s t post := by
  cases waiting : s.source.rest with
  | nil =>
    have fails : Fails (Grammar.advance) s := by
      unfold Fails Grammar.advance
      rw [StateT.run_bind]
      simp only [StateT.run_get, pure_bind, waiting]
      exact Fails.unexpected "more input" s
    exact .of_fails (fails.bind f)
  | cons h rest =>
    obtain ⟨k, rest', first, later, waiting'⟩ := List.forall₂_cons_left_iff.mp (waiting ▸ beside.rest)
    exact .step (run_advance waiting) (run_advance waiting') (next h k _ _ ⟨beside.first, beside.second, later⟩ first)

theorem expect (beside : Beside x y s t) (kind : TokenKind) {f : Handle → Parse α} {g : Handle → Parse β}
    (next : ∀ h k s' t', Beside x y s' t' → Resembles x y h k → Follows (f h) (g k) s' t' post) :
    Follows (Grammar.expect kind >>= f) (Grammar.expect kind >>= g) s t post := by
  unfold Grammar.expect
  rw [bind_assoc, bind_assoc]
  refine beside.peek fun seen => ?_
  split_ifs
  · exact beside.advance next
  · exact .unexpected_bind kind.describe

/-- A token that may be missing on both sides. -/
theorem accept (beside : Beside x y s t) (kind : TokenKind) {f : Option Handle → Parse α} {g : Option Handle → Parse β}
    (next : ∀ h k s' t', Beside x y s' t' → Option.Rel (Resembles x y) h k → Follows (f h) (g k) s' t' post) :
    Follows (accept? kind >>= f) (accept? kind >>= g) s t post := by
  unfold accept?
  rw [bind_assoc, bind_assoc]
  refine beside.peek fun seen => ?_
  split_ifs
  · rw [bind_assoc, bind_assoc]
    exact beside.advance fun h k s' t' later same => next (some h) (some k) s' t' later (.some same)
  · exact next none none s t beside .none

end Beside

/-- Units that say the same were read on both sides. -/
def SameUnit (x y : TokenStream) (u v : HexUnit) (s t : State) : Prop := Beside x y s t ∧ v.tree y = u.tree x

def SameUnits (x y : TokenStream) (us vs : List HexUnit) (s t : State) : Prop :=
  Beside x y s t ∧ HexUnit.treesAll y vs = HexUnit.treesAll x us

private theorem bounds_resemble {h k : Option Handle} (same : Option.Rel (Resembles x y) h k) :
    k.map (HexUnit.bound y) = h.map (HexUnit.bound x) ∧ integerAt? y k = integerAt? x h ∧ k.isSome = h.isSome := by
  cases same with
  | none => exact ⟨by rw [Option.map_none, Option.map_none], rfl, rfl⟩
  | some same =>
    refine ⟨by rw [Option.map_some, Option.map_some, same.bound], ?_, rfl⟩
    obtain ⟨a, b, stored, stored', look, _⟩ := same
    simp [integerAt?, stored, stored', look.literal]

private theorem Beside.jumpEnd (beside : Beside x y s t) {opening opening' : Handle}
    {low low' dash dash' high high' : Option Handle}
    (lower : Option.Rel (Resembles x y) low low') (dashed : Option.Rel (Resembles x y) dash dash')
    (upper : Option.Rel (Resembles x y) high high') :
    Follows (Grammar.jumpEnd opening low dash high) (Grammar.jumpEnd opening' low' dash' high')
      s t (SameUnit x y) := by
  unfold Grammar.jumpEnd
  obtain ⟨low_bound, low_number, low_some⟩ := bounds_resemble lower
  obtain ⟨high_bound, high_number, _⟩ := bounds_resemble upper
  obtain ⟨_, _, dash_some⟩ := bounds_resemble dashed
  have lone : (low'.isNone && dash'.isNone) = (low.isNone && dash.isNone) := by
    rw [← Option.not_isSome, ← Option.not_isSome, low_some, dash_some, Option.not_isSome, Option.not_isSome]
  rw [lone]
  split_ifs
  · exact .unexpected_bind _
  refine beside.expect .hexJumpClose fun closing closing' s₁ t₁ later _ => .step rfl rfl ?_
  have whole : SameUnit x y (.jump opening low dash high closing) (.jump opening' low' dash' high' closing') s₁ t₁ :=
    ⟨later, by rw [HexUnit.tree, HexUnit.tree, low_bound, high_bound, dash_some]⟩
  rw [later.first, later.second, low_number, high_number]
  split
  · split_ifs
    · exact .fail_bind opening _
    · exact .pure whole
  · exact .pure whole

theorem Beside.hexJump (beside : Beside x y s t) : Follows Grammar.hexJump Grammar.hexJump s t (SameUnit x y) := by
  unfold Grammar.hexJump
  refine beside.expect .hexJumpOpen fun opening opening' s₁ t₁ beside₁ _ => ?_
  refine beside₁.accept .integer fun low low' s₂ t₂ beside₂ lower => ?_
  refine beside₂.accept .dash fun dash dash' s₃ t₃ beside₃ dashed => ?_
  cases dashed with
  | none => exact .step rfl rfl (beside₃.jumpEnd lower .none .none)
  | some between =>
    exact beside₃.accept .integer fun high high' s₄ t₄ beside₄ upper => beside₄.jumpEnd lower (.some between) upper

/-- Items with separators between them, that are read alike. -/
theorem Beside.separated {separator : TokenKind} {item : Parse α} {item' : Parse β} {related : α → β → Prop}
    (reads : ∀ {s t}, Beside x y s t → Follows item item' s t fun a b s' t' => Beside x y s' t' ∧ related a b) :
    ∀ (bound : Nat) {s t : State}, Beside x y s t →
      Follows (Grammar.separated separator item bound) (Grammar.separated separator item' bound) s t
        fun as bs s' t' => Beside x y s' t' ∧ List.Forall₂ related as bs
  | 0, _, _, beside => .bind (reads beside) fun _ _ _ _ ⟨later, same⟩ => .pure ⟨later, .cons same .nil⟩
  | bound + 1, _, _, beside => by
    refine .bind (reads beside) fun a b s₁ t₁ ⟨beside₁, same⟩ => ?_
    refine beside₁.accept separator fun between between' s₂ t₂ beside₂ again => ?_
    cases again with
    | none => exact .pure ⟨beside₂, .cons same .nil⟩
    | some _ =>
      refine .bind (Beside.separated reads bound beside₂) fun as bs s₃ t₃ ⟨beside₃, others⟩ => ?_
      exact .pure ⟨beside₃, .cons same others⟩

private theorem emptiness {us vs : List HexUnit} (same : HexUnit.treesAll y vs = HexUnit.treesAll x us) :
    vs.isEmpty = us.isEmpty := by
  rw [HexUnit.treesAll_eq, HexUnit.treesAll_eq] at same
  have empty := congrArg List.isEmpty same
  rwa [List.isEmpty_map, List.isEmpty_map] at empty

private theorem treesAmong_alike {as bs : List (List HexUnit)}
    (same : List.Forall₂ (fun us vs => HexUnit.treesAll y vs = HexUnit.treesAll x us) as bs) : HexUnit.treesAmong y bs =
    HexUnit.treesAmong x as := by
  induction same with
  | nil => rw [HexUnit.treesAmong, HexUnit.treesAmong]
  | cons first _ ih => rw [HexUnit.treesAmong, HexUnit.treesAmong, first, ih]

/-- The units that are read are the same, by induction on the bound. -/
theorem Beside.hexUnits : ∀ (bound : Nat) {s t : State}, Beside x y s t →
    Follows (Grammar.hexUnits bound) (Grammar.hexUnits bound) s t (SameUnits x y)
  | 0, _, _, beside => .pure ⟨beside, rfl⟩
  | bound + 1, s, t, beside => by
    have more {u v : HexUnit} {s' t' : State} (same : SameUnit x y u v s' t') :
        Follows (do return u :: (← Grammar.hexUnits bound)) (do return v :: (← Grammar.hexUnits bound)) s' t'
          (SameUnits x y) :=
      .bind (Beside.hexUnits bound same.1) fun us vs _ _ ⟨later, others⟩ =>
        .pure ⟨later, by rw [HexUnit.treesAll, HexUnit.treesAll, same.2, others]⟩
    rw [Grammar.hexUnits]
    refine beside.peek fun kind => ?_
    split
    · refine beside.advance fun token token' s₁ t₁ beside₁ same => ?_
      have text : t₁.source.tokens.text token' = s₁.source.tokens.text token := by
        rw [beside₁.first, beside₁.second]
        exact congrArg JumpBound.text same.bound
      refine .step rfl rfl ?_
      rw [text]
      split_ifs
      · exact .fail_bind token _
      · refine more ⟨beside₁, ?_⟩
        rw [HexUnit.tree, HexUnit.tree, ← beside₁.first, ← beside₁.second, text]
    · exact .bind beside.hexJump fun _ _ _ _ same => more same
    · refine beside.advance fun opening opening' s₁ t₁ beside₁ _ => ?_
      have alternative {s t : State} (beside : Beside x y s t) :
        Follows (hexAlternative bound) (hexAlternative bound) s t
          fun us vs s' t' => Beside x y s' t' ∧ HexUnit.treesAll y vs = HexUnit.treesAll x us := by
        refine .bind (Beside.hexUnits bound beside) fun us vs s' t' known => ?_
        obtain ⟨later, same⟩ := known
        rw [emptiness same]
        split_ifs
        · exact .unexpected _
        · exact .pure ⟨later, same⟩
      refine .bind (Beside.separated alternative bound beside₁) fun as bs s₂ t₂ known => ?_
      obtain ⟨beside₂, same⟩ := known
      rw [same.length_eq]
      split_ifs
      · exact .unexpected_bind _
      refine beside₂.expect .hexAltClose fun closing closing' s₃ t₃ beside₃ _ => more ⟨beside₃, ?_⟩
      rw [HexUnit.tree, HexUnit.tree, treesAmong_alike same]
    · exact .pure ⟨beside, rfl⟩

/-- A hex string that says the given is read from here. -/
def ReadsUnits (s : State) (trees : List HexTree) : Prop :=
  ∃ hex s', hexString s = .ok (hex, s') ∧ hex.trees s'.source.tokens = trees

theorem Beside.hexString (beside : Beside x y s t) : Follows Grammar.hexString Grammar.hexString s t
    fun hex hex' s' t' => hex'.trees t'.source.tokens = hex.trees s'.source.tokens := by
  unfold Grammar.hexString
  refine beside.expect .hexStart fun opening opening' s₁ t₁ beside₁ _ => ?_
  refine .step rfl rfl ?_
  rw [beside₁.rest.length_eq]
  refine .bind (Beside.hexUnits _ beside₁) fun us vs s₂ t₂ ⟨beside₂, same⟩ => ?_
  rw [emptiness same]
  split_ifs
  · exact .unexpected_bind _
  refine beside₂.expect .hexEnd fun closing closing' s₃ t₃ beside₃ _ => .step rfl rfl (.step rfl rfl (.pure ?_))
  -- Only the opening brace changes, and it is no part of the units.
  show HexUnit.treesAll (t₃.source.tokens.modify opening' _) vs =
    HexUnit.treesAll (s₃.source.tokens.modify opening _) us
  rw [HexUnit.treesAll_breaks, HexUnit.treesAll_breaks, beside₃.first, beside₃.second, same]

theorem Beside.symm (beside : Beside x y s t) : Beside y x t s := by
  refine ⟨beside.second, beside.first, beside.rest.flip.imp fun k h same => ?_⟩
  obtain ⟨a, b, stored, stored', look, plain⟩ := same
  exact ⟨b, a, stored', stored, look.symm, by rw [Plain, look.literal]; exact plain⟩

private theorem Beside.readsUnits (beside : Beside x y s t) (trees : List HexTree) :
    ReadsUnits s trees ↔ ReadsUnits t trees := by
  have onward {x y : TokenStream} {s t : State} (beside : Beside x y s t) (reads : ReadsUnits s trees) :
      ReadsUnits t trees := by
    obtain ⟨hex, s', run, spells⟩ := reads
    obtain ⟨hex', t', run', same⟩ := beside.hexString hex s' run
    exact ⟨hex', t', run', same.trans spells⟩
  exact ⟨onward beside, onward beside.symm⟩

/-! ### Sources with a comment and without it -/

/-- So many words of the source have been read, and the others are as they were. -/
def State.Past (s : State) (source : Source) (n : Nat) : Prop :=
  s.source.rest.map s.source.tokens.get? = (source.rest.map source.tokens.get?).drop n

private theorem resemble_of_looks {words words' : List Token} (looks : List.Forall₂ Look words words') :
    ∀ {row row' : List Handle}, row.map x.get? = words.map some → row'.map y.get? = words'.map some →
    (∀ a ∈ words, Plain a) → List.Forall₂ (Resembles x y) row row' := by
  induction looks with
  | nil =>
    intro row row' stored stored' _
    obtain rfl := List.map_eq_nil_iff.mp stored
    obtain rfl := List.map_eq_nil_iff.mp stored'
    exact .nil
  | @cons a b _ _ look _ ih =>
    intro row row' stored stored' plain
    obtain ⟨h, later, rfl, first, others⟩ := List.map_eq_cons_iff.mp stored
    obtain ⟨k, later', rfl, first', others'⟩ := List.map_eq_cons_iff.mp stored'
    obtain ⟨own, plains⟩ := List.forall_mem_cons.mp plain
    exact .cons ⟨a, b, first, first', look, own⟩ (ih others others' plains)

private theorem beside_of_past {source source' : Source} {n : Nat} {words words' : List Token}
    (row : source.rest.map source.tokens.get? = words.map some)
    (row' : source'.rest.map source'.tokens.get? = words'.map some) (looks : List.Forall₂ Look words words')
    (plain : ∀ a ∈ words, Plain a) (past : s.Past source n)
    (past' : t.Past source' n) : Beside s.source.tokens t.source.tokens s t := by
  rw [State.Past, row, ← List.map_drop] at past
  rw [State.Past, row', ← List.map_drop] at past'
  exact ⟨rfl, rfl, resemble_of_looks (List.forall₂_drop n looks) past past' fun a member =>
    plain a (List.mem_of_mem_drop member)⟩

private theorem inserted_sources {path : Option String} {front comment behind : Bytes}
    (inserted : Lexer.Inserted path front comment behind)
    (id id' : ChainId) : (∃ source, sourceOf id path (front ++ behind) = .ok source) ↔
      ∃ source, sourceOf id' path (front ++ (comment ++ behind)) = .ok source := by
  have same := inserted.likewise
  constructor
  · rintro ⟨source, done⟩
    rw [sourceOf_tokens done] at same
    cases found : Lexer.tokens path (front ++ (comment ++ behind)) with
    | ok words => exact sourceOf_ok found id'
    | error e =>
      rw [found] at same
      cases same
  · rintro ⟨source, done⟩
    rw [sourceOf_tokens done] at same
    cases found : Lexer.tokens path (front ++ behind) with
    | ok words => exact sourceOf_ok found id
    | error e =>
      rw [found] at same
      cases same

private theorem inserted_reads {path : Option String} {front comment behind : Bytes} {id id' : ChainId}
    {source source' : Source} {n : Nat} (inserted : Lexer.Inserted path front comment behind)
    (without : sourceOf id path (front ++ behind) = .ok source)
    (commented : sourceOf id' path (front ++ (comment ++ behind)) = .ok source') (past : s.Past source n)
    (past' : t.Past source' n) (trees : List HexTree) : ReadsUnits s trees ↔ ReadsUnits t trees := by
  have same := inserted.likewise
  rw [sourceOf_tokens without, sourceOf_tokens commented] at same
  cases same with
  | ok looks =>
    refine (beside_of_past (sourceOf_rest without) (sourceOf_rest commented) looks (fun a member =>
      ?_) past past').readsUnits trees
    obtain ⟨entry, stored, rfl⟩ := List.mem_map.mp (List.mem_filter.mp member).1
    exact ((sourceOf_untouched without).fresh entry stored).1

open Lexer (lexemeOutwards EndsIn Single Closing Inserted) in
/-- A block comment of normal mode ends at the first asterisk with a slash behind it. In a hex string only asterisks
without a partner before them end it, so it may take more there, and is the same if no two asterisks follow one another.
A comment that the lexer finds between two words of a hex string does not change its units. -/
theorem block_comments (outer : Lexer.Mode) (rest : Bytes) :
    (∀ inner length, lexemeOutwards outer (0x2F :: 0x2A :: rest) = (inner, some (.token .blockComment, length)) ↔
      ∃ n, length = n + 2 ∧ EndsIn outer rest n inner) ∧
    (∀ n, Single rest n → (Closing true rest n ↔ Closing false rest n)) ∧
    ∀ path front comment behind, Inserted path front comment behind → ∀ id id',
      ((∃ source, sourceOf id path (front ++ behind) = .ok source) ↔
        ∃ source, sourceOf id' path (front ++ (comment ++ behind)) = .ok source) ∧
      ∀ source source', sourceOf id path (front ++ behind) = .ok source →
      sourceOf id' path (front ++ (comment ++ behind)) = .ok source' →
        ∀ (n : Nat) (s t : State), s.Past source n → t.Past source' n → ∀ trees, ReadsUnits s trees ↔
        ReadsUnits t trees :=
  ⟨fun _ _ => Lexer.comment_ends, fun _ => Lexer.closing_alike, fun _ _ _ _ inserted id id' =>
    ⟨inserted_sources inserted id id', fun _ _ without commented _ _ _ past past' =>
      inserted_reads inserted without commented past past'⟩⟩

/-- The comment goes between the two bytes of this string, and reads like one of them. -/
theorem block_comments_between : Lexer.Closing true (Bytes.ofText " 03 */ 02 \x7d") 6 ∧
    Lexer.Closing false (Bytes.ofText " 03 */ 02 \x7d") 6 ∧
    ∃ source source' s t, sourceOf 0 none (Bytes.ofText "$a = \x7b 01 02 \x7d") = .ok source ∧
    sourceOf 1 none (Bytes.ofText "$a = \x7b 01/* 03 */ 02 \x7d") = .ok source' ∧ s.Past source 2 ∧ t.Past source' 2 ∧
    ReadsUnits s [.byte "01", .byte "02"] ∧ ReadsUnits t [.byte "01", .byte "02"] := by
  have single : Lexer.Single (Bytes.ofText " 03 */ 02 \x7d") 6 := by
    intro i inside star
    have known : ∀ i < 5, (Bytes.ofText " 03 */ 02 \x7d")[i]? = some 0x2A →
        (Bytes.ofText " 03 */ 02 \x7d")[i + 1]? ≠ some 0x2A := by
      decide
    exact known i (Nat.lt_of_succ_lt_succ inside) star
  have closing : Lexer.Closing true (Bytes.ofText " 03 */ 02 \x7d") 6 := by
    obtain ⟨n, length, closing⟩ :=
      Lexer.blockComment_iff.mp (rfl : Lexer.blockComment? true (Bytes.ofText "/* 03 */ 02 \x7d") = some 8)
    obtain rfl : n = 6 := Nat.add_right_cancel length.symm
    exact closing
  refine ⟨closing, ((block_comments .normal _).2.1 _ single).mp closing, ?_⟩
  have valid : isStringIdentifier "$a" = true := by decide
  have inserted : Lexer.Inserted none (Bytes.ofText "$a = \x7b 01") (Bytes.ofText "/* 03 */")
      (Bytes.ofText " 02 \x7d") := by
    have front (rest : Bytes) := @Lexer.definition_gets none "$a" "01" valid (by decide) rest
    obtain ⟨words, s, gets, left, made⟩ := front (Bytes.ofText " 02 \x7d")
    obtain ⟨words', t, gets', left', made'⟩ := front (Bytes.ofText "/* 03 */" ++ Bytes.ofText " 02 \x7d")
    exact ⟨⟨words, words', s, t, Lexer.looks_of_made made made', gets, left, gets', left'⟩, rfl⟩
  let units : List HexTree := [.byte "01", .byte "02"]
  have sound : ∀ unit ∈ units, unit.Sound := by
    intro unit member
    simp only [units, List.mem_cons, List.not_mem_nil, or_false] at member
    rcases member with rfl | rfl <;> exact .byte (by decide)
  obtain ⟨words, lexed, made⟩ := @Lexer.lexed_definition none "$a" valid units (by decide) sound
  have text : Bytes.ofText ("$a" ++ " = " ++ stringText units) = Bytes.ofText "$a = \x7b 01" ++
      Bytes.ofText " 02 \x7d" := by
    rw [Lexer.ofText_append, Lexer.stringText_bytes (by decide), Lexer.ofText_append]
    rfl
  have whole : Bytes.ofText "$a = \x7b 01" ++ Bytes.ofText " 02 \x7d" = Bytes.ofText "$a = \x7b 01 02 \x7d" := rfl
  have whole' : Bytes.ofText "$a = \x7b 01" ++ (Bytes.ofText "/* 03 */" ++ Bytes.ofText " 02 \x7d") =
      Bytes.ofText "$a = \x7b 01/* 03 */ 02 \x7d" := rfl
  obtain ⟨source, without⟩ := sourceOf_ok lexed 0
  obtain ⟨distinct, row⟩ := sourceOf_row without lexed (spoken_of_made made (definition_spoken "$a" units))
  rw [text] at without
  obtain ⟨alike, same⟩ := (block_comments .normal []).2.2 none _ _ _ inserted 0 1
  obtain ⟨source', commented⟩ := alike.mp ⟨source, without⟩
  let s := (State.first {} {} source 2 []).leave (source.rest.drop 2)
  let t := (State.first {} {} source' 2 []).leave (source'.rest.drop 2)
  have past : s.Past source 2 := List.map_drop
  have past' : t.Past source' 2 := List.map_drop
  have reads : ReadsUnits s units := by
    obtain ⟨name, later, _, others, rfl⟩ := List.forall₂_cons_left_iff.mp made
    obtain ⟨mark, body, _, inner, rfl⟩ := List.forall₂_cons_left_iff.mp others
    have left : s.source.rest.map s.source.tokens.get? = body.map some := by
      show (source.rest.drop 2).map source.tokens.get? = _
      rw [List.map_drop, row]
      rfl
    obtain ⟨hex, wanted, run, _, spells⟩ :=
      hexString_run (by decide) sound (stand_of_made inner left) (List.append_nil _).symm
    exact ⟨hex, _, run, (HexUnit.treesAll_breaks _ _ _ _).trans spells⟩
  have reads' := (same source source' without commented 2 s t past past' units).mp reads
  rw [whole] at without
  rw [whole'] at commented
  exact ⟨source, source', s, t, without, commented, past, past', reads, reads'⟩

end Grammar

end YaraRules
