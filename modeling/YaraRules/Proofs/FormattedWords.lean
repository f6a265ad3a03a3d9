import YaraRules.Proofs.EntryLines
import YaraRules.Proofs.RegexpTexts
import YaraRules.Proofs.Spelling

/-! Formatted texts that are read again. A word is found again in the layout if its text alone is found as a word,
and if it may stand where it is laid right behind another one. Comments, hex strings and included files
are left out. -/

namespace YaraRules

open Grammar (shown)
open Text (Firm)

namespace Lexer

variable {file : Option String} {s : State} {words : List Token} {bytes rest : Bytes} {a : Token} {text : String}
    {kind : TokenKind}

/-! ### Words alone -/

/-- The kind is that of a word, or of the brace that opens a rule. -/
def isRead (kind : TokenKind) : Bool := isWord kind || kind == .openBrace

/-- The token that is found where there is nothing but the text: a word, or the brace that opens a rule. -/
def alone? (text : String) : Option Token :=
  match step none { rest := Bytes.ofText text } with
  | .found a _ =>
    if shown a == text && (isWord a.kind || text == "\x7b") && !onlyBackslashes text then some a else none
  | _ => none

private theorem alone_found (alone : alone? text = some a) :
    ∃ s', step none { rest := Bytes.ofText text } = .found a s' ∧ shown a = text ∧
      (isWord a.kind = true ∨ text = "\x7b") ∧ onlyBackslashes text = false := by
  unfold alone? at alone
  split at alone
  next found =>
    split_ifs at alone with known
    cases alone
    simp only [Bool.and_eq_true, Bool.or_eq_true, beq_iff_eq, Bool.not_eq_true'] at known
    exact ⟨_, found, known.1.1, known.1.2, known.2⟩
  next => cases alone

theorem alone_shown (alone : alone? text = some a) : shown a = text := by
  obtain ⟨_, _, same, _⟩ := alone_found alone
  exact same

private theorem alone_brace (alone : alone? "\x7b" = some a) : a.kind = .openBrace ∧ a.literal = .ofWritten "\x7b" := by
  obtain ⟨s', found, _⟩ := alone_found alone
  have left : State.At { rest := Bytes.ofText "\x7b" } .normal ([0x7B] ++ []) := ⟨rfl, rfl⟩
  cases (step_at left (lexeme_brace []) rfl rfl).symm.trans found
  exact ⟨rfl, rfl⟩

theorem alone_read (alone : alone? text = some a) : isRead a.kind = true := by
  obtain ⟨_, _, _, word | rfl, _⟩ := alone_found alone
  · simp [isRead, word]
  · simp [isRead, (alone_brace alone).1]

private theorem read_known (read : isRead kind = true) : modeAfter .normal kind = .normal ∧ kind.isTrivia = false ∧
    kind ≠ .newLine ∧ kind ≠ .lineComment := by
  revert read
  cases kind <;> decide

theorem alone_firm (alone : alone? text = some a) : Firm text := by
  obtain ⟨_, found, same, _⟩ := alone_found alone
  exact same ▸ TokenKind.firm_of_word (read_known (alone_read alone)).2.1 (found_fits found)

/-- A word that is found alone is found in front of all that leaves it. -/
theorem alone_again (alone : alone? text = some a) (leaves : Leaves a.kind rest) : Reread a rest := by
  obtain ⟨_, found, same, word | brace, clear⟩ := alone_found alone
  · exact found_again found word (fun _ => same ▸ clear) leaves
  · subst brace
    obtain ⟨kind, literal⟩ := alone_brace alone
    refine ⟨by rw [same, kind]; exact lexeme_brace rest, fun location => ?_⟩
    rw [same, kind, literal]
    rfl

theorem alone_begins (alone : alone? text = some a) (leaves : Leaves a.kind rest)
    (dotted : a.kind = .dot → ∀ b ∈ rest.head?, isDigit b = false) : Begins a.kind (Bytes.ofText text ++ rest) := by
  obtain ⟨_, _, same, word | brace, _⟩ := alone_found alone
  · exact same ▸ begins_of_lexeme (alone_again alone leaves).found word dotted
  · subst brace
    rw [(alone_brace alone).1]
    exact ⟨by rintro _ ⟨⟩; rfl, by rintro _ ⟨⟩; exact List.prefix_append _ _, nofun, nofun⟩

/-! ### Words with white space between them -/

/-- The words make up the bytes, and white space stands between them. No brace stands behind an equal sign, since
it would open a hex string. -/
inductive Spread : List Token → Bytes → Prop
  | nil : Spread [] []
  | gap {words : List Token} {gap bytes : Bytes} (some : gap ≠ []) (white : ∀ b ∈ gap, b = 0x20 ∨ b = 0x09)
      (black : ∀ b ∈ bytes.head?, isWhite b = false) (spread : Spread words bytes) : Spread words (gap ++ bytes)
  | line {words : List Token} {stop bytes : Bytes} (ends : stop = [0x0A] ∨ stop = [0x0D, 0x0A])
      (spread : Spread words bytes) : Spread words (stop ++ bytes)
  | word {words : List Token} {a : Token} {bytes : Bytes} (again : Reread a bytes) (read : isRead a.kind = true)
      (apart : a.kind = .assign → ∀ b ∈ words.head?, b.kind ≠ .openBrace) (spread : Spread words bytes) :
      Spread (a :: words) (Bytes.ofText (shown a) ++ bytes)

/-- The tokens are the same but for where they stand. -/
def Alike (a b : Token) : Prop := a.kind = b.kind ∧ a.literal = b.literal

private theorem lexeme_gap (some : bytes ≠ []) (white : ∀ b ∈ bytes, b = 0x20 ∨ b = 0x09)
    (black : ∀ b ∈ rest.head?, isWhite b = false) :
    lexeme? .normal (bytes ++ rest) = Option.some (.blank, bytes.length) := by
  have run : blanks? (bytes ++ rest) = Option.some bytes.length := by
    refine run1_append (fun b member => ?_) some fun b first => ?_
    · rcases white b member with rfl | rfl <;> rfl
    · have other := black b first
      simp only [isWhite, Bool.or_eq_false_iff] at other
      simp [other.1.1]
  obtain ⟨b, more, rfl⟩ := List.exists_cons_of_ne_nil some
  have none : ∀ entry ∈ fixedTexts, entry.1.head? ≠ Option.some b := by
    intro entry listed first
    have known := List.all_eq_true.mp fixedTexts_written entry listed
    rw [first] at known
    rcases white b (by simp) with rfl | rfl <;> simp [isWhite] at known
  have lead : b ≠ 0x22 ∧ b ≠ 0x2F ∧ isDigit b = false ∧ (isAlpha b || b == 0x5F) = false ∧ b ≠ 0x0A ∧ b ≠ 0x0D ∧
      b ≠ 0x24 ∧ b ≠ 0x23 ∧ b ≠ 0x40 ∧ b ≠ 0x21 := by
    rcases white b (by simp) with rfl | rfl <;> decide
  obtain ⟨quote, slash, digit, letter, feed, ret, dollar, hash, at_, bang⟩ := lead
  obtain ⟨float, integer⟩ := @number_lead (more ++ rest) b digit
  have line : newLine? (b :: (more ++ rest)) = Option.none := by
    unfold newLine?
    split
    next same => exact absurd (List.cons.inj same).1 ret
    next same => exact absurd (List.cons.inj same).1 ret
    next same => exact absurd (List.cons.inj same).1 feed
    · rfl
  rw [List.cons_append] at run ⊢
  rw [lexeme_eq, longest_none (fixeds_none none _)]
  simp [classes, wildcard?, sigil?, regexp_lead slash, blockComment_lead slash, lineComment_lead slash,
    string_lead quote, line, run, float, integer, identifier_lead letter, dollar, hash, at_, bang, longest]

private theorem lexeme_line {stop : Bytes} (ends : stop = [0x0A] ∨ stop = [0x0D, 0x0A]) (rest : Bytes) :
    lexeme? .normal (stop ++ rest) = some (.token .newLine, stop.length) := by
  have none : ∀ b ∈ [(0x0A : UInt8), 0x0D], ∀ entry ∈ fixedTexts, entry.1.head? ≠ some b := by
    intro b member entry listed first
    have known := List.all_eq_true.mp fixedTexts_written entry listed
    rw [first] at known
    simp only [List.mem_cons, List.not_mem_nil, or_false] at member
    rcases member with rfl | rfl <;> simp [isWhite] at known
  rcases ends with rfl | rfl
  · obtain ⟨float, integer⟩ := @number_lead rest 0x0A rfl
    rw [List.cons_append, lexeme_eq, longest_none (fixeds_none (none 0x0A (by simp)) _)]
    simp [classes, wildcard?, sigil?, regexp?, blockComment?, lineComment?, string?, newLine?, blanks?, run1?, run,
      float, integer, identifier_lead (show (isAlpha 0x0A || 0x0A == 0x5F) = false from rfl), longest]
  · obtain ⟨float, integer⟩ := @number_lead (0x0A :: rest) 0x0D rfl
    rw [List.cons_append, lexeme_eq, longest_none (fixeds_none (none 0x0D (by simp)) _)]
    simp [classes, wildcard?, sigil?, regexp?, blockComment?, lineComment?, string?, newLine?, blanks?, run1?, run,
      float, integer, identifier_lead (show (isAlpha 0x0D || 0x0D == 0x5F) = false from rfl), longest]

/-- Words are found where they are spread, and nothing else but line breaks is. -/
theorem Spread.lexed (spread : Spread words bytes) (file : Option String) :
    ∀ s : State, s.Left bytes → (s.last = some .assign → ∀ b ∈ words.head?, b.kind ≠ .openBrace) →
    ∃ found, Lexer.lexed file s = .ok found ∧ List.Forall₂ Alike words (found.filter fun a => !a.kind.isTrivia) := by
  induction spread with
  | nil => exact fun s left _ => ⟨[], lexed_nil left, .nil⟩
  | gap some white black spread ih =>
    intro s left apart
    obtain ⟨s', left', last, whole⟩ := lexed_blanks left (lexeme_gap some white black)
    rw [whole]
    exact ih s' left' (last ▸ apart)
  | line ends spread ih =>
    intro s left apart
    have role : (if TokenKind.newLine == .openBrace && s.last == some .assign then .hexStart else .newLine) =
        TokenKind.newLine := rfl
    obtain ⟨location, s', left', last, whole⟩ := lexed_at left (lexeme_line ends _) role fun _ => rfl
    obtain ⟨found, done, alike⟩ := ih s' left' fun same => apart (last.symm.trans same)
    exact ⟨_, whole.trans (congrArg _ done), alike⟩
  | @word words a bytes again read plain spread ih =>
    intro s left apart
    obtain ⟨mode, word, _⟩ := read_known read
    have role : (if a.kind == .openBrace && s.last == some .assign then .hexStart else a.kind) = a.kind := by
      refine if_neg fun hex => ?_
      simp only [Bool.and_eq_true, beq_iff_eq] at hex
      exact apart hex.2 a rfl hex.1
    obtain ⟨location, s', left', last, whole⟩ := lexed_at left again.found role again.made
    rw [mode] at left'
    rw [word, if_neg Bool.false_ne_true] at last
    obtain ⟨found, done, alike⟩ := ih s' left' fun same => plain (Option.some.inj (last.symm.trans same))
    refine ⟨_, whole.trans (congrArg _ done), ?_⟩
    rw [List.filter_cons_of_pos (by simp [word])]
    exact .cons ⟨rfl, rfl⟩ alike

theorem Spread.tokens (spread : Spread words bytes) (file : Option String) :
    ∃ found, Lexer.tokens file bytes = .ok found ∧
      List.Forall₂ Alike words (found.filter fun a => !a.kind.isTrivia) :=
  spread.lexed file { rest := bytes } ⟨rfl, rfl⟩ nofun

/-- What comes behind a word of the kind leaves it as it is, and no digit comes right behind a dot. -/
structure Unjoined (kind : TokenKind) (rest : Bytes) : Prop where
  leaves : Leaves kind rest
  dotted : kind = .dot → ∀ b ∈ rest.head?, isDigit b = false

theorem Ends.unjoined (ends : Ends rest) (kind : TokenKind) : Unjoined kind rest := by
  refine ⟨?_, fun _ b first => ?_⟩
  · by_cases dot : kind = .dot
    · exact .inr (.inl ⟨dot, fun point => absurd (ends _ point) (by decide)⟩)
    · exact .inr (.inr ⟨dot, ends.loose⟩)
  · rcases white_cases (ends b first) with rfl | rfl | rfl | rfl <;> rfl

theorem unjoined_of_fits {left right : TokenKind} (fit : Grammar.fits left right = true) (begins : Begins right bytes) :
    Unjoined left bytes :=
  ⟨Grammar.leaves_of_fits fit begins, fun dot => Grammar.digit_of_fits (dot ▸ fit) begins⟩

theorem unjoined_colon (begins : Begins .colon bytes) (kind : TokenKind) : Unjoined kind bytes := by
  obtain ⟨more, rfl⟩ := begins.fixed ":" rfl
  have first : ∀ b ∈ (Bytes.ofText ":" ++ more).head?, b = 0x3A := by
    rintro _ ⟨⟩
    rfl
  refine ⟨?_, fun _ b head => first b head ▸ rfl⟩
  by_cases dot : kind = .dot
  · exact .inr (.inl ⟨dot, fun point => absurd (first _ point) (by decide)⟩)
  · refine .inr (.inr ⟨dot, fun b head => first b head ▸ by decide, fun b rest same => ?_⟩)
    exact absurd (first 0x2E (by rw [same]; rfl)) (by decide)

end Lexer

/-- Lines are indented by blanks and tabs. -/
def LayoutStyle.Blank (style : LayoutStyle) : Prop := ∀ c ∈ style.indent.toList, c = ' ' ∨ c = '\t'

namespace Layout

/-! ### Words of the layout -/

/-- A token of the layout: its kind there, and what its text alone is found as. -/
structure Word where
  kind : TokenKind
  token : Token

namespace Word

/-- The text of the word is read again. -/
def Known (w : Word) : Prop := Lexer.alone? (shown w.token) = some w.token

/-- The other word may be laid right behind this one. -/
def meets (v w : Word) : Bool :=
  (Page.spaced v.kind w.kind || Grammar.fits v.token.kind w.token.kind || w.token.kind == .colon) &&
    !(v.token.kind == .assign && w.token.kind == .openBrace)

def allMeet : List Word → Bool
  | v :: w :: rest => v.meets w && allMeet (w :: rest)
  | _ => true

theorem chain_of_allMeet : ∀ {words : List Word}, allMeet words = true → words.IsChain fun v w => v.meets w = true
  | [], _ => .nil
  | [w], _ => .singleton w
  | v :: w :: rest, all => by
    obtain ⟨first, later⟩ := Bool.and_eq_true_iff.mp all
    exact .cons_cons first (chain_of_allMeet later)

end Word

/-- The token of the layout that the item is. A directive is read as the same directive, and nothing else as one. -/
def Item.word? : Item → Option Word
  | .code kind text _ =>
    match Lexer.alone? text with
    | some a => if [.kwImport, .kwInclude].all fun k => (kind == k) == (a.kind == k) then some ⟨kind, a⟩ else none
    | none => none
  | _ => none

/-- The item is a line break, or a token that is read again. -/
def Item.isPlain (item : Item) : Bool := item == .lineBreak || item.word?.isSome

/-- All items are read again, where they are laid. -/
def isLegible (items : List Item) : Bool := items.all Item.isPlain && Word.allMeet (items.filterMap Item.word?)

theorem Item.word_known {item : Item} {w : Word} (known : item.word? = some w) :
    w.Known ∧ (∃ block, item = .code w.kind (shown w.token) block) ∧
      ∀ kind ∈ [TokenKind.kwImport, .kwInclude], (w.kind == kind) = (w.token.kind == kind) := by
  unfold word? at known
  split at known
  next kind text block =>
    split at known
    next a alone =>
      split_ifs at known with directive
      cases known
      have same := Lexer.alone_shown alone
      exact ⟨by rw [Word.Known, same]; exact alone, ⟨block, by rw [same]⟩,
        fun kind member => beq_iff_eq.mp (List.all_eq_true.mp directive kind member)⟩
    next => cases known
  next => cases known

/-- The text of a line: the words, with a blank between two of them unless their kinds are joined. -/
inductive Joined : List Word → String → Prop
  | none : Joined [] ""
  | first (w : Word) : Joined [w] (shown w.token)
  | next {row : List Word} {code : String} {v w : Word} (joined : Joined (row ++ [v]) code) :
      Joined (row ++ [v] ++ [w]) (code ++ ((if Page.spaced v.kind w.kind then " " else "") ++ shown w.token))

section

variable {row placed later : List Word} {rows : List (List Word)} {code text : String} {words : List Token}
    {rest : Bytes} {line : Line} {above : List Line} {items : List Item} {item : Item}

private theorem Joined.firm (joined : Joined row code) (known : ∀ w ∈ row, w.Known) (some : row ≠ []) : Firm code := by
  cases joined with
  | none => exact absurd rfl some
  | first w => exact Lexer.alone_firm (known w (by simp))
  | @next row code v w joined => exact ((Lexer.alone_firm (known w (by simp))).behind _).behind _

private theorem Joined.nothing (joined : Joined row code) (none : row = []) : code = "" := by
  cases joined with
  | none => rfl
  | first w => cases none
  | next => simp at none

private theorem Joined.empty (joined : Joined row "") (known : ∀ w ∈ row, w.Known) : row = [] := by
  by_contra some
  exact (joined.firm known some).ne_empty rfl

/-! ### Words on their lines -/

/-- The words of the row are on the line, and nothing else is. -/
structure Line.Bears (line : Line) (row : List Word) : Prop where
  bare : line.comment = none
  joined : Joined row line.code

/-- The words were placed, and nothing else was. -/
structure Page.Bears (p : Page) (placed : List Word) : Prop where
  lines : ∃ rows now, List.Forall₂ Line.Bears p.above rows ∧ p.current.Bears now ∧ rows.reverse.flatten ++ now = placed
  last : p.last = placed.getLast?.map (·.kind)

namespace Page

variable {p : Page} {kind : TokenKind}

private theorem Bears.breakLine (bears : p.Bears placed) : p.breakLine.Bears placed := by
  obtain ⟨⟨rows, now, lines, line, whole⟩, last⟩ := bears
  unfold Page.breakLine
  dsimp only
  split_ifs
  · exact ⟨⟨rows, now, lines, line, whole⟩, last⟩
  · exact ⟨⟨now :: rows, [], .cons line lines, ⟨rfl, .none⟩, by simpa using whole⟩, last⟩

private theorem bears_blank : Line.blank.Bears [] := ⟨rfl, .none⟩

private theorem Bears.blankLine (bears : p.Bears placed) : p.blankLine.Bears placed := by
  obtain ⟨⟨rows, now, lines, line, whole⟩, last⟩ := bears.breakLine
  unfold Page.blankLine
  dsimp only
  split_ifs
  · exact ⟨⟨[] :: rows, now, .cons bears_blank lines, line, by simpa using whole⟩, last⟩
  · exact ⟨⟨rows, now, lines, line, whole⟩, last⟩

private theorem setOff_bears (lines : List.Forall₂ Line.Bears above rows) :
    ∃ rows', List.Forall₂ Line.Bears (setOff above) rows' ∧ rows'.reverse.flatten = rows.reverse.flatten := by
  have parts : above.takeWhile (·.commentOnly) ++ above.dropWhile (·.commentOnly) = above :=
    List.takeWhile_append_dropWhile
  unfold setOff
  dsimp only
  split
  next none =>
    rw [none, List.append_nil] at parts
    exact ⟨rows, parts.symm ▸ lines, rfl⟩
  next first more some =>
    split_ifs
    · exact ⟨rows, lines, rfl⟩
    · rw [← parts, some] at lines
      obtain ⟨front, back, rfl, one, two⟩ := TokenStream.forall₂_parts lines
      exact ⟨front ++ [] :: back, List.rel_append one (.cons bears_blank two), by simp⟩

private theorem Bears.makeRoom (bears : p.Bears placed) (kind : TokenKind) : (p.makeRoom kind).Bears placed := by
  refine @makeRoom_keeps p (·.Bears placed) bears kind ?_ ?_ ?_ ?_
  · intro q q' bears above current last
    refine ⟨?_, last.trans bears.last⟩
    rw [above, current]
    exact bears.lines
  · exact fun q bears => bears.breakLine
  · exact fun q bears => bears.blankLine
  · intro q bears
    obtain ⟨⟨rows, now, lines, line, whole⟩, last⟩ := bears
    obtain ⟨rows', lines', same⟩ := setOff_bears lines
    exact ⟨⟨rows', now, lines', line, by rw [same, whole]⟩, last⟩

private theorem Bears.write (bears : p.Bears placed) (known : ∀ w ∈ placed, w.Known) (w : Word) :
    ∃ rows now, List.Forall₂ Line.Bears p.above rows ∧ (p.write w.kind (shown w.token)).current.Bears now ∧
      rows.reverse.flatten ++ now = placed ++ [w] := by
  obtain ⟨⟨rows, now, lines, line, whole⟩, last⟩ := bears
  obtain ⟨comment, _, code⟩ := write_current p w.kind (shown w.token)
  have mine : ∀ v ∈ now, v.Known := fun v member => known v (whole ▸ List.mem_append_right _ member)
  refine ⟨rows, now ++ [w], lines, ⟨comment.trans line.bare, ?_⟩, by rw [← List.append_assoc, whole]⟩
  rw [code]
  rcases List.eq_nil_or_concat now with rfl | ⟨row, v, rfl⟩
  · have none : p.current.code = "" := line.joined.nothing rfl
    have empty : p.current.isEmpty = true := by simp [Line.isEmpty, none, line.bare]
    rw [none, empty]
    simpa using Joined.first w
  · have filled : p.current.code ≠ "" := (line.joined.firm mine (by simp)).ne_empty
    have some : p.current.isEmpty = false := by simp [Line.isEmpty, filled]
    have final : p.last = Option.some v.kind := by simp [last, ← whole]
    have joined := line.joined
    rw [List.concat_eq_append] at joined ⊢
    rw [some, final]
    exact joined.next

private theorem Bears.placeCode (bears : p.Bears placed) (known : ∀ w ∈ placed, w.Known) (w : Word) (block : Bool) :
    (p.placeCode w.kind (shown w.token) block).Bears (placed ++ [w]) := by
  obtain ⟨rows, now, lines, line, whole⟩ := (bears.makeRoom w.kind).write known w
  exact ⟨⟨rows, now, lines, line, whole⟩, by rw [List.getLast?_concat]; rfl⟩

private theorem Bears.place (bears : p.Bears placed) (known : ∀ w ∈ placed, w.Known) (plain : item.isPlain = true) :
    (p.place item).Bears (placed ++ item.word?.toList) := by
  simp only [Item.isPlain, Bool.or_eq_true, beq_iff_eq] at plain
  rcases plain with rfl | found
  · have same : Page.Bears { p with breaks := p.breaks + 1 } placed := ⟨bears.lines, bears.last⟩
    rw [show Item.lineBreak.word? = none from rfl, Option.toList_none, List.append_nil]
    exact same.breakLine
  · obtain ⟨w, word⟩ := Option.isSome_iff_exists.mp found
    obtain ⟨_, ⟨block, rfl⟩, _⟩ := Item.word_known word
    rw [word]
    exact bears.placeCode known w block

private theorem Bears.foldl (plain : ∀ item ∈ items, item.isPlain = true) {p : Page} {placed : List Word}
    (bears : p.Bears placed) (known : ∀ w ∈ placed, w.Known) :
    (items.foldl Page.place p).Bears (placed ++ items.filterMap Item.word?) := by
  induction items generalizing p placed with
  | nil => simpa using bears
  | cons item items ih =>
    obtain ⟨here, more⟩ := List.forall_mem_cons.mp plain
    have known' : ∀ w ∈ placed ++ item.word?.toList, w.Known := by
      intro w member
      rcases List.mem_append.mp member with old | new
      · exact known w old
      · exact (Item.word_known (Option.mem_toList.mp new)).1
    have rest := ih more (bears.place known here) known'
    rw [List.append_assoc] at rest
    cases word : item.word? <;> simpa [List.filterMap_cons, word] using rest

end Page

private theorem settle_bears (lines : List.Forall₂ Line.Bears above rows) (level : Nat) :
    List.Forall₂ Line.Bears (settleLevels level above) rows := by
  induction lines generalizing level with
  | nil => exact .nil
  | cons line _ ih =>
    unfold settleLevels
    split
    · exact .cons line (ih _)
    · exact .cons ⟨line.bare, line.joined⟩ (ih _)

/-- The words of the items are on the lines, row by row. -/
private theorem lines_bear (plain : ∀ item ∈ items, item.isPlain = true) :
    ∃ rows, List.Forall₂ Line.Bears (lines items) rows ∧ rows.flatten = items.filterMap Item.word? := by
  have start : Page.Bears {} [] := ⟨⟨[], [], .nil, ⟨rfl, .none⟩, rfl⟩, rfl⟩
  have placed := start.foldl plain fun w none => absurd none List.not_mem_nil
  obtain ⟨⟨rows, now, lines, line, whole⟩, _⟩ := placed.breakLine
  have known : ∀ w ∈ now, w.Known := by
    intro w member
    have listed : w ∈ items.filterMap Item.word? := by
      rw [List.nil_append] at whole
      exact whole ▸ List.mem_append_right _ member
    obtain ⟨item, _, word⟩ := List.mem_filterMap.mp listed
    exact (Item.word_known word).1
  obtain ⟨bare, _⟩ := Page.isEmpty_line (Page.current_breakLine (items.foldl Page.place {}))
  have joined := line.joined
  rw [bare] at joined
  obtain rfl := joined.empty known
  refine ⟨rows.reverse, List.forall₂_reverse_iff.mpr (settle_bears lines 0), ?_⟩
  simpa using whole

/-! ### Words of a text -/

/-- Words of one line are spread over its text. -/
private theorem Joined.spread (joined : Joined row code) (known : ∀ w ∈ row, w.Known)
    (chain : row.IsChain fun v w => v.meets w = true) {words : List Token} {rest : Bytes}
    (spread : Lexer.Spread words rest)
    (after : ∀ v ∈ row.getLast?, Lexer.Unjoined v.token.kind rest ∧
      (v.token.kind = .assign → ∀ b ∈ words.head?, b.kind ≠ .openBrace)) :
    Lexer.Spread (row.map (·.token) ++ words) (Bytes.ofText code ++ rest) ∧
      (row ≠ [] → ∀ b ∈ (Bytes.ofText code ++ rest).head?, Lexer.isWhite b = false) := by
  induction joined generalizing words rest with
  | none => exact ⟨spread, fun some => absurd rfl some⟩
  | first w =>
    obtain ⟨unjoined, plain⟩ := after w rfl
    have alone := known w (by simp)
    exact ⟨.word (Lexer.alone_again alone unjoined.leaves) (Lexer.alone_read alone) plain spread,
      fun _ => (Lexer.alone_begins alone unjoined.leaves unjoined.dotted).black⟩
  | @next row code v w joined ih =>
    obtain ⟨unjoined, plain⟩ := after w (by simp)
    have alone := known w (by simp)
    have begins := Lexer.alone_begins alone unjoined.leaves unjoined.dotted
    have here : Lexer.Spread (w.token :: words) (Bytes.ofText (shown w.token) ++ rest) :=
      .word (Lexer.alone_again alone unjoined.leaves) (Lexer.alone_read alone) plain spread
    obtain ⟨chain', meets⟩ : (row ++ [v]).IsChain (fun v w => v.meets w = true) ∧ v.meets w = true := by
      have parts := List.isChain_append.mp chain
      exact ⟨parts.1, parts.2.2 v (by simp) w (by simp)⟩
    have known' : ∀ w ∈ row ++ [v], w.Known := fun u member => known u (List.mem_append_left _ member)
    simp only [Word.meets, Bool.and_eq_true, Bool.or_eq_true, Bool.not_eq_true', Bool.and_eq_false_iff, beq_iff_eq,
      beq_eq_false_iff_ne] at meets
    obtain ⟨close, brace⟩ := meets
    have apart : v.token.kind = .assign → ∀ b ∈ (w.token :: words).head?, b.kind ≠ .openBrace := by
      rintro assign _ ⟨⟩
      exact brace.resolve_left (fun other => other assign)
    rw [List.map_append, List.map_singleton, List.append_assoc, List.singleton_append, Lexer.ofText_append,
      List.append_assoc]
    by_cases spaced : Page.spaced v.kind w.kind = true
    · have white : Lexer.Ends (0x20 :: (Bytes.ofText (shown w.token) ++ rest)) := by
        rintro _ ⟨⟩
        rfl
      rw [if_pos spaced, Lexer.ofText_append, List.append_assoc]
      have gap : Lexer.Spread (w.token :: words) (0x20 :: (Bytes.ofText (shown w.token) ++ rest)) :=
        @Lexer.Spread.gap _ [0x20] _ (by simp) (by simp) begins.black here
      refine And.imp_right (fun black _ => black (by simp)) (ih known' chain' gap ?_)
      rintro u last
      obtain rfl : v = u := by simpa using last
      exact ⟨white.unjoined _, apart⟩
    · rw [if_neg spaced, String.empty_append]
      refine And.imp_right (fun black _ => black (by simp)) (ih known' chain' here ?_)
      rintro u last
      obtain rfl : v = u := by simpa using last
      refine ⟨?_, apart⟩
      rcases close with (joined | fit) | colon
      · exact absurd joined spaced
      · exact Lexer.unjoined_of_fits fit begins
      · exact Lexer.unjoined_colon (colon ▸ begins) _

/-! ### Texts of lines -/

private theorem aligned_bare {style : LayoutStyle} {pairs : List (String × Option String)}
    (bare : ∀ pair ∈ pairs, pair.2 = none) : aligned style pairs = pairs.map (·.1) := by
  have parts := List.flatten_splitBy (fun a b : String × Option String => a.2.isSome == b.2.isSome) pairs
  have runs : ∀ run ∈ pairs.splitBy (fun a b => a.2.isSome == b.2.isSome), withComments style run = run.map (·.1) := by
    intro run listed
    refine List.map_congr_left fun pair member => ?_
    obtain ⟨code, comment⟩ := pair
    obtain rfl : comment = none := bare _ (parts ▸ List.mem_flatten.mpr ⟨run, listed, member⟩)
    rfl
  rw [aligned, List.flatMap_congr runs, ← List.map_flatMap]
  exact congrArg _ (List.flatMap_id .. ▸ parts)

private theorem chars_intercalate (texts : List String) :
    ("".intercalate texts).toList = (texts.map String.toList).flatten := by
  rw [String.toList_intercalate]
  exact Regexp.intercalate_nothing _

private theorem ofText_intercalate (texts : List String) :
    Bytes.ofText ("".intercalate texts) = (texts.map Bytes.ofText).flatten := by
  induction texts with
  | nil => rfl
  | cons text texts ih =>
    have split : "".intercalate (text :: texts) = text ++ "".intercalate texts := by
      rw [← String.toList_inj, String.toList_append, chars_intercalate, chars_intercalate, List.map_cons,
        List.flatten_cons]
    rw [split, Lexer.ofText_append, ih, List.map_cons, List.flatten_cons]

private theorem ofText_blank {text : String} (blank : ∀ c ∈ text.toList, c = ' ' ∨ c = '\t') :
    ∀ b ∈ Bytes.ofText text, b = 0x20 ∨ b = 0x09 := by
  intro b member
  obtain ⟨c, listed, inside⟩ := List.mem_flatMap.mp member
  rcases blank c listed with rfl | rfl
  · exact .inl (List.mem_singleton.mp inside)
  · exact .inr (List.mem_singleton.mp inside)

private theorem trimEnd_blank {text : String} (blank : ∀ c ∈ text.toList, c = ' ' ∨ c = '\t') :
    Text.trimEnd text = "" := by
  have all : ∀ c ∈ text.toList.reverse, Text.isBlank c = true := by
    intro c member
    rcases blank c (List.mem_reverse.mp member) with rfl | rfl <;> rfl
  rw [Text.trimEnd, List.dropWhile_eq_nil_iff.mpr all]
  rfl

private theorem times_blank {text : String} (blank : ∀ c ∈ text.toList, c = ' ' ∨ c = '\t') (n : Nat) :
    ∀ c ∈ (times text n).toList, c = ' ' ∨ c = '\t' := by
  intro c member
  rw [times, chars_intercalate, List.map_replicate] at member
  obtain ⟨chars, listed, inside⟩ := List.mem_flatten.mp member
  exact blank c (List.eq_of_mem_replicate listed ▸ inside)

/-- What a line is indented by. -/
private def margin (style : LayoutStyle) (line : Line) : String :=
  if line.margin then "" else times style.indent (line.level.getD 0)

private theorem indented_code (style : LayoutStyle) (line : Line) :
    (indented style line).1 = margin style line ++ line.code := by
  unfold indented margin
  split_ifs <;> simp

/-- What is written for a line without a comment at its end. -/
private def rowBytes (style : LayoutStyle) (newline : String) (line : Line) : Bytes :=
  Bytes.ofText (Text.trimEnd (indented style line).1 ++ newline)

private theorem spread_line {style : LayoutStyle} {newline : String}
    (blank : style.Blank) (ends : newline = "\n" ∨ newline = "\r\n")
    (bears : line.Bears row) (known : ∀ w ∈ row, w.Known)
    (chain : (row ++ later).IsChain fun v w => v.meets w = true)
    (spread : Lexer.Spread (later.map (·.token)) rest) :
    Lexer.Spread ((row ++ later).map (·.token)) (rowBytes style newline line ++ rest) := by
  have shift : ∀ c ∈ (margin style line).toList, c = ' ' ∨ c = '\t' := by
    unfold margin
    split_ifs
    · exact nofun
    · exact times_blank blank _
  have stops : Bytes.ofText newline = [0x0A] ∨ Bytes.ofText newline = [0x0D, 0x0A] := by
    rcases ends with rfl | rfl
    · exact .inl rfl
    · exact .inr rfl
  have below : Lexer.Spread (later.map (·.token)) (Bytes.ofText newline ++ rest) := .line stops spread
  have white : Lexer.Ends (Bytes.ofText newline ++ rest) := by
    rcases stops with same | same <;> rw [same] <;> rintro _ ⟨⟩ <;> rfl
  obtain ⟨inner, _, across⟩ := List.isChain_append.mp chain
  rw [rowBytes, indented_code, Lexer.ofText_append, List.append_assoc]
  by_cases none : row = []
  · subst none
    rw [bears.joined.nothing rfl, String.append_empty, trimEnd_blank shift]
    exact below
  · have firm := bears.joined.firm known none
    have after : ∀ v ∈ row.getLast?, Lexer.Unjoined v.token.kind (Bytes.ofText newline ++ rest) ∧
        (v.token.kind = .assign → ∀ b ∈ (later.map (·.token)).head?, b.kind ≠ .openBrace) := by
      refine fun v last => ⟨white.unjoined _, fun assign b first => ?_⟩
      rw [List.head?_map] at first
      obtain ⟨w, head, rfl⟩ := Option.map_eq_some_iff.mp first
      have meets := across v last w head
      simp only [Word.meets, assign, beq_self_eq_true, Bool.true_and, Bool.and_eq_true, Bool.not_eq_true',
        beq_eq_false_iff_ne] at meets
      exact meets.2
    obtain ⟨words, black⟩ := bears.joined.spread known inner below after
    rw [trimEnd_firm (firm.behind _), Lexer.ofText_append, List.append_assoc, List.map_append]
    by_cases flat : Bytes.ofText (margin style line) = []
    · rw [flat]
      exact words
    · exact .gap flat (ofText_blank shift) (black none) words

private theorem bears_bare {lines : List Line} (bears : List.Forall₂ Line.Bears lines rows) :
    ∀ line ∈ lines, line.comment = none := by
  induction bears with
  | nil => exact nofun
  | cons line _ ih => exact List.forall_mem_cons.mpr ⟨line.bare, ih⟩

private theorem render_bare (style : LayoutStyle) (newline : String) {lines : List Line}
    (bare : ∀ line ∈ lines, line.comment = none) :
    Bytes.ofText (render style newline lines) = (lines.map (rowBytes style newline)).flatten := by
  have pairs : ∀ pair ∈ lines.map (indented style), pair.2 = none := List.forall_mem_map.mpr bare
  have row : rowBytes style newline = fun line => Bytes.ofText (Text.trimEnd (indented style line).1 ++ newline) := rfl
  rw [render, aligned_bare pairs, ofText_intercalate, row]
  simp only [List.map_map, Function.comp_def]

private theorem spread_lines {style : LayoutStyle} {newline : String} {lines : List Line}
    (blank : style.Blank) (ends : newline = "\n" ∨ newline = "\r\n")
    (bears : List.Forall₂ Line.Bears lines rows) (known : ∀ w ∈ rows.flatten, w.Known)
    (chain : rows.flatten.IsChain fun v w => v.meets w = true) :
    Lexer.Spread (rows.flatten.map (·.token)) (lines.map (rowBytes style newline)).flatten := by
  induction bears with
  | nil => exact .nil
  | cons line _ ih =>
    rw [List.flatten_cons] at known chain ⊢
    obtain ⟨here, more⟩ := List.forall_mem_append.mp known
    exact spread_line blank ends line here chain (ih more (List.isChain_append.mp chain).2.1)

/-- Words of items that are legible are spread over their lines. -/
theorem spread_render {style : LayoutStyle} {newline : String} (blank : style.Blank)
    (ends : newline = "\n" ∨ newline = "\r\n") (legible : isLegible items = true) :
    Lexer.Spread ((items.filterMap Item.word?).map (·.token)) (Bytes.ofText (render style newline (lines items))) := by
  obtain ⟨plain, meet⟩ := Bool.and_eq_true_iff.mp legible
  obtain ⟨rows, bears, whole⟩ := lines_bear (List.all_eq_true.mp plain)
  have known : ∀ w ∈ rows.flatten, w.Known := by
    intro w member
    rw [whole] at member
    obtain ⟨item, _, word⟩ := List.mem_filterMap.mp member
    exact (Item.word_known word).1
  have chain : rows.flatten.IsChain fun v w => v.meets w = true := by
    rw [whole]
    exact Word.chain_of_allMeet meet
  rw [render_bare style newline (bears_bare bears), ← whole]
  exact spread_lines blank ends bears known chain

end

end Layout

/-! ### Words of a stream -/

open Layout (Item Word itemOf itemsOf)

/-- The token that was found has the text of the word, and is a directive if the word is one. -/
structure Renders (word : TokenKind × String) (a : Token) : Prop where
  text : word.2 = shown a
  directive : ∀ kind ∈ [TokenKind.kwImport, .kwInclude], (word.1 == kind) = (a.kind == kind)

private theorem Renders.alike {word : TokenKind × String} {a b : Token} (renders : Renders word a)
    (same : Lexer.Alike a b) : Renders word b := by
  have text : shown a = shown b := by rw [shown, shown, same.1, same.2]
  exact ⟨renders.text.trans text, fun kind member => by rw [renders.directive kind member, same.1]⟩

namespace TokenStream

variable {s : TokenStream}

/-- There are no included files, and every token is found again where it is laid. -/
def isLegible (s : TokenStream) : Bool :=
  s.nested.isEmpty && (s.newlineText == "\n" || s.newlineText == "\r\n") &&
    Layout.isLegible (s.entries.map fun entry => itemOf s entry.2)

private theorem itemsOf_bare (entries : List (Handle × Token)) :
    itemsOf s [] false entries = entries.map fun entry => itemOf s entry.2 := by
  induction entries with
  | nil => rfl
  | cons entry entries ih =>
    rw [itemsOf, if_neg (by simp), List.map_cons, ← ih]
    split_ifs <;> rfl

private theorem items_bare (bare : s.nested = []) (expand : Bool) :
    Layout.items s expand = s.entries.map fun entry => itemOf s entry.2 := by
  obtain ⟨chain, nested⟩ := s
  obtain rfl : nested = [] := bare
  rw [← itemsOf_bare]
  cases expand with
  | false => rfl
  | true =>
    rw [Layout.items, if_pos rfl, Layout.expandedItems]
    rfl

private theorem itemOf_cases (s : TokenStream) (token : Token) :
    token.kind.isTrivia = true ∧ (itemOf s token = .lineBreak ∨ (itemOf s token).isComment = true) ∨
      token.kind.isTrivia = false ∧ itemOf s token = .code token.kind (s.textOf token) token.breakAfter := by
  unfold itemOf
  split
  next same => exact .inl ⟨by rw [same]; rfl, .inl rfl⟩
  next same => exact .inl ⟨by rw [same]; rfl, .inr rfl⟩
  next same => exact .inl ⟨by rw [same]; rfl, .inr rfl⟩
  next line block remark =>
    refine .inr ⟨?_, rfl⟩
    revert line block remark
    cases token.kind <;> simp [TokenKind.isTrivia]

private theorem word_item {token : Token} (plain : (itemOf s token).isPlain = true) :
    token.kind.isTrivia = true ∧ (itemOf s token).word? = none ∨
      token.kind.isTrivia = false ∧ ∃ w, (itemOf s token).word? = some w ∧
        Renders (token.kind, s.textOf token) w.token := by
  rcases itemOf_cases s token with ⟨trivia, broken | remark⟩ | ⟨word, code⟩
  · exact .inl ⟨trivia, by rw [broken]; rfl⟩
  · generalize itemOf s token = item at plain remark
    cases item <;> cases remark
    cases plain
  · rw [code] at plain ⊢
    obtain ⟨w, found⟩ := Option.isSome_iff_exists.mp (by simpa [Item.isPlain] using plain)
    obtain ⟨_, ⟨block, same⟩, directive⟩ := Item.word_known found
    injection same with kind text
    exact .inr ⟨word, w, found, text, kind ▸ directive⟩

private theorem words_items {entries : List (Handle × Token)}
    (plain : ∀ entry ∈ entries, (itemOf s entry.2).isPlain = true) :
    List.Forall₂ (fun word w => Renders word w.token)
      ((entries.filter fun entry => !entry.2.kind.isTrivia).map fun entry => (entry.2.kind, s.textOf entry.2))
      ((entries.map fun entry => itemOf s entry.2).filterMap Item.word?) := by
  induction entries with
  | nil => exact .nil
  | cons entry entries ih =>
    obtain ⟨here, more⟩ := List.forall_mem_cons.mp plain
    rcases word_item here with ⟨trivia, none⟩ | ⟨word, w, found, renders⟩
    · rw [List.filter_cons_of_neg (by simp [trivia]), List.map_cons, List.filterMap_cons_none none]
      exact ih more
    · rw [List.filter_cons_of_pos (by simp [word]), List.map_cons, List.map_cons, List.filterMap_cons_some found]
      exact .cons renders (ih more)

private theorem spelling_bare (sound : s.Sound) (bare : s.nested = []) :
    s.spelling = (s.entries.filter fun entry => !entry.2.kind.isTrivia).map fun entry =>
      (entry.2.kind, s.textOf entry.2) := by
  have free : ∀ entry ∈ s.entries, s.subAt? entry.1.index = none := fun entry _ => by rw [subAt?, bare]; rfl
  rw [spelling, words, wordsOf, spots_entries free, List.filter_map, List.map_map]
  refine List.map_congr_left fun entry member => ?_
  have stored : s.get? entry.1 = some entry.2 :=
    sound.get?_self (List.mem_map_of_mem (List.mem_filter.mp member).1)
  exact congrArg (Prod.mk entry.2.kind) (text_eq s stored)

/-- The formatted text of a legible stream is read again word by word. -/
theorem Sound.formatted_words (sound : s.Sound) (legible : s.isLegible = true) {style : LayoutStyle}
    (blank : style.Blank) (expand : Bool) (file : Option String) :
    ∃ found, Lexer.tokens file (Bytes.ofText (s.formatted style expand)) = .ok found ∧
      List.Forall₂ Renders s.spelling (found.filter fun a => !a.kind.isTrivia) := by
  simp only [isLegible, Bool.and_eq_true, Bool.or_eq_true, beq_iff_eq] at legible
  obtain ⟨⟨none, ends⟩, legible⟩ := legible
  have bare : s.nested = [] := List.isEmpty_iff.mp none
  have plain := List.all_eq_true.mp (Bool.and_eq_true_iff.mp legible).1
  obtain ⟨found, done, alike⟩ := (Layout.spread_render blank ends legible).tokens file
  refine ⟨found, by rw [formatted, items_bare bare]; exact done, ?_⟩
  have words : List.Forall₂ Renders s.spelling
      (((s.entries.map fun entry => itemOf s entry.2).filterMap Item.word?).map (·.token)) := by
    rw [spelling_bare sound bare]
    exact List.forall₂_map_right_iff.mpr (words_items (List.forall_mem_map.mp plain))
  exact forall₂_compose (fun _ _ _ renders same => renders.alike same) words alike

end TokenStream

end YaraRules
