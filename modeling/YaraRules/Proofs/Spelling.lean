import YaraRules.Proofs.ExprHandles
import YaraRules.Proofs.PairedSteps
import YaraRules.Proofs.RereadWords

/-! How the text of an expression is made of the words of its tokens: in their order, with
one blank or nothing between two of them. Nothing stands between words that no lexer
could take for one. -/

namespace YaraRules.Grammar

/-- Tokens that may follow one another without a blank between them. -/
def fits (left right : TokenKind) : Bool :=
  match right with
  | .openParen | .closeParen | .openBracket | .closeBracket | .comma | .modulo => true
  | .doubleDot => left != .dot
  | .dot => left == .identifier || left == .closeBracket
  | _ =>
    match left with
    | .openParen | .openBracket | .minus | .bitNot | .doubleDot => true
    | .dot => right == .identifier
    | _ => false

/-- Kinds of the first token of an expression. -/
def startsExpr : TokenKind → Bool
  | .boolean | .integer | .float | .string | .regexp | .kwFilesize | .kwEntrypoint | .identifier | .stringName
  | .stringWildcard | .stringCount | .stringOffset | .stringLength | .openParen | .kwNot | .kwDefined | .kwFor
  | .kwAll | .kwAny | .kwNone | .kwThem | .minus | .bitNot => true
  | _ => false

/-- Kinds of the last token of an expression. -/
def endsExpr : TokenKind → Bool
  | .boolean | .integer | .float | .string | .regexp | .kwFilesize | .kwEntrypoint | .identifier | .stringName
  | .stringWildcard | .stringCount | .stringOffset | .stringLength | .closeParen | .closeBracket
  | .kwAll | .kwAny | .kwNone | .kwThem | .modulo => true
  | _ => false

private theorem fits_opened {left right : TokenKind} (starts : startsExpr right = true)
    (opening : left = .openParen ∨ left = .openBracket ∨ left = .minus ∨ left = .bitNot ∨ left = .doubleDot) :
    fits left right = true := by
  revert starts
  rcases opening with rfl | rfl | rfl | rfl | rfl <;> cases right <;> decide

private theorem fits_doubleDot {left : TokenKind} (ends : endsExpr left = true) : fits left .doubleDot = true := by
  revert ends
  cases left <;> decide

private theorem word_of_starts {kind : TokenKind} (starts : startsExpr kind = true) : Lexer.isWord kind = true := by
  revert starts
  cases kind <;> decide

private theorem not_dot_of_starts {kind : TokenKind} (starts : startsExpr kind = true) : kind ≠ .dot := by
  rintro rfl
  cases starts

private theorem not_dot_of_ends {kind : TokenKind} (ends : endsExpr kind = true) : kind ≠ .dot := by
  rintro rfl
  cases ends

/-- The text consists of the words of the tokens. A dot has no blank on either side. -/
inductive Spaced (c : Pairing) : List Handle → String → Prop
  | word (h : Handle) : Spaced c [h] (c.word h)
  | blank {h k : Handle} {rest : List Handle} {text : String} : (c.lexed h).kind ≠ .dot → (c.lexed k).kind ≠ .dot →
    Spaced c (k :: rest) text → Spaced c (h :: k :: rest) (c.word h ++ " " ++ text)
  | close {h k : Handle} {rest : List Handle} {text : String} : fits (c.lexed h).kind (c.lexed k).kind = true →
    Spaced c (k :: rest) text → Spaced c (h :: k :: rest) (c.word h ++ text)

/-- The tokens spell the text, and the first and the last of them are of the given kinds. -/
structure Spelled (c : Pairing) (used : List Handle) (text : String) (first last : TokenKind) : Prop where
  spaced : Spaced c used text
  words : ∀ h ∈ used, Lexer.isWord (c.lexed h).kind = true
  first : used.head?.map (fun h => (c.lexed h).kind) = some first
  last : used.getLast?.map (fun h => (c.lexed h).kind) = some last

namespace Spelled

variable {c : Pairing} {front back : List Handle} {text later : String} {first middle next last : TokenKind}

theorem token {h : Handle} {kind : TokenKind} (same : (c.lexed h).kind = kind) (word : Lexer.isWord kind = true) :
    Spelled c [h] (c.word h) kind kind :=
  ⟨.word h, by simpa [same] using word, by simp [same], by simp [same]⟩

theorem nonempty (spelled : Spelled c front text first last) : front ≠ [] := by
  intro empty
  have first := spelled.first
  rw [empty] at first
  cases first

private theorem append (gap : String) (step : ∀ {h k : Handle} {rest : List Handle} {text : String},
      (c.lexed h).kind = middle → (c.lexed k).kind = next → Spaced c (k :: rest) text →
      Spaced c (h :: k :: rest) (c.word h ++ gap ++ text))
    (one : Spelled c front text first middle) (two : Spelled c back later next last) :
    Spelled c (front ++ back) (text ++ gap ++ later) first last := by
  obtain ⟨spaced, words, head, tail⟩ := one
  obtain ⟨k, rest, rfl⟩ : ∃ k rest, back = k :: rest := by
    cases back with
    | nil => exact absurd rfl two.nonempty
    | cons k rest => exact ⟨k, rest, rfl⟩
  have starts : (c.lexed k).kind = next := by simpa using two.first
  refine ⟨?_, List.forall_mem_append.mpr ⟨words, two.words⟩, ?_, ?_⟩
  · clear head words
    induction spaced with
    | word h => exact step (by simpa using tail) starts two.spaced
    | @blank h j rest text left right more ih =>
      have longer := Spaced.blank left right (ih (by simpa using tail))
      simpa [String.append_assoc] using longer
    | @close h j rest text fit more ih =>
      have longer := Spaced.close fit (ih (by simpa using tail))
      simpa [String.append_assoc] using longer
  · cases spaced <;> simpa using head
  · have ends := two.last
    rw [List.getLast?_append]
    simpa using ends

theorem blank (one : Spelled c front text first middle) (two : Spelled c back later next last)
    (left : middle ≠ .dot) (right : next ≠ .dot) : Spelled c (front ++ back) (text ++ " " ++ later) first last := by
  refine append " " ?_ one two
  rintro h k rest text rfl rfl spaced
  exact .blank left right spaced

theorem close (one : Spelled c front text first middle) (two : Spelled c back later next last)
    (fit : fits middle next = true) : Spelled c (front ++ back) (text ++ later) first last := by
  have joined := append "" (fun {h k rest text} same same' spaced => by
    subst same same'
    simpa using Spaced.close fit spaced) one two
  simpa using joined

end Spelled

/-- Texts with commas between them are spelled by the tokens. -/
def Listed (c : Pairing) (used : List Handle) (texts : List String) : Prop :=
  ∃ first last, Spelled c used (", ".intercalate texts) first last ∧ startsExpr first = true ∧ endsExpr last = true

/-- Expressions that may stand for a structure, an array or a dictionary. -/
def isSelection : Expr → Bool
  | .atom _ .name _ | .field .. | .index .. => true
  | _ => false

/-- The tokens are those of the expressions, and commas between them. -/
@[grind] def Comprises (c : Pairing) (used handles : List Handle) : Prop :=
  handles ⊆ used ∧ ∀ h ∈ used, h ∈ handles ∨ (c.lexed h).kind = .comma

/-- The expression is spelled by the tokens that were read for it. -/
structure Spells (c : Pairing) (used : List Handle) (e : Expr) : Prop where
  spelled : ∃ first last, Spelled c used (e.textWith c.word) first last ∧ startsExpr first = true ∧
    endsExpr last = true ∧
    (isSelection e = true → last = .identifier ∨ last = .closeBracket)
  handles : Comprises c used e.handles

variable {c : Pairing} {used front back : List Handle} {e : Expr}

theorem Spells.nonempty {used : List Handle} {e : Expr} (spells : Spells c used e) : used ≠ [] := by
  obtain ⟨first, last, spelled, -⟩ := spells.spelled
  exact spelled.nonempty

namespace Listed

theorem one {text : String} {first last : TokenKind} (spelled : Spelled c used text first last)
    (starts : startsExpr first = true) (ends : endsExpr last = true) : Listed c used [text] :=
  ⟨first, last, by simpa using spelled, starts, ends⟩

theorem cons {text : String} {texts : List String} {first last : TokenKind} {comma : Handle}
    (spelled : Spelled c front text first last) (starts : startsExpr first = true)
    (separator : Spelled c [comma] "," .comma .comma) (some : texts ≠ []) (listed : Listed c back texts) :
    Listed c (front ++ [comma] ++ back) (text :: texts) := by
  obtain ⟨next, final, spelled', starts', ends'⟩ := listed
  have whole := (spelled.close separator rfl).blank spelled' (by decide) (not_dot_of_starts starts')
  refine ⟨first, final, ?_, starts, ends'⟩
  have joined : ", ".intercalate (text :: texts) = text ++ "," ++ " " ++ ", ".intercalate texts := by
    cases texts with
    | nil => exact absurd rfl some
    | cons later texts =>
      have pair : ", " = "," ++ " " := rfl
      rw [String.intercalate_cons_cons, pair, ← String.append_assoc]
  rwa [joined]

end Listed

namespace Spells

variable {type : ValueType} {first second : Expr}

theorem atom {h : Handle} {kind : AtomKind} {k : TokenKind} (same : (c.lexed h).kind = k) (starts : startsExpr k = true)
    (ends : endsExpr k = true) (named : kind = .name → k = .identifier) : Spells c [h] (.atom type kind h) := by
  refine ⟨⟨k, k, .token same (word_of_starts starts), starts, ends, fun selection => .inl (named ?_)⟩,
    by simp [Expr.handles, Comprises]⟩
  revert selection
  cases kind <;> simp [isSelection]

theorem regexp {h : Handle} {regexp : Regexp} (same : (c.lexed h).kind = .regexp) :
    Spells c [h] (.regexp type h regexp) :=
  ⟨⟨.regexp, .regexp, .token same rfl, rfl, rfl, by simp [isSelection]⟩, by simp [Expr.handles, Comprises]⟩

/-- Two expressions with a word between them. -/
private theorem infixed {token : Handle} {k : TokenKind} {text : String} (one : Spells c front first)
    (word : Spelled c [token] text k k) (plain : k ≠ .dot) (two : Spells c back second) :
    ∃ a b, Spelled c (front ++ [token] ++ back)
      (first.textWith c.word ++ " " ++ text ++ " " ++ second.textWith c.word) a b ∧ startsExpr a = true ∧
      endsExpr b = true := by
  obtain ⟨a, b, left, starts, ends, -⟩ := one.spelled
  obtain ⟨a', b', right, starts', ends', -⟩ := two.spelled
  exact ⟨a, b', (left.blank word (not_dot_of_ends ends) plain).blank right plain
    (not_dot_of_starts starts'), starts, ends'⟩

theorem binary {op : BinaryOp} {token : Handle} {k : TokenKind} (one : Spells c front first)
    (same : (c.lexed token).kind = k) (word : Lexer.isWord k = true) (plain : k ≠ .dot) (two : Spells c back second) :
    Spells c (front ++ [token] ++ back) (.binary type op first token second) := by
  obtain ⟨a, b, spelled, starts, ends⟩ := one.infixed (.token same word) plain two
  refine ⟨⟨a, b, spelled, starts, ends, by simp [isSelection]⟩, ?_⟩
  have left := one.handles
  have right := two.handles
  simp only [Expr.handles]
  grind

theorem of {token : Handle} (one : Spells c front first) (same : (c.lexed token).kind = .kwOf)
    (two : Spells c back second) : Spells c (front ++ [token] ++ back) (.of type first token second) := by
  obtain ⟨a, b, spelled, starts, ends⟩ := one.infixed (.token same rfl) (by decide) two
  refine ⟨⟨a, b, spelled, starts, ends, by simp [isSelection]⟩, ?_⟩
  have left := one.handles
  have right := two.handles
  simp only [Expr.handles]
  grind

theorem unary {op : UnaryOp} {token : Handle} {k : TokenKind} (same : (c.lexed token).kind = k)
    (starts : startsExpr k = true) (kinds : op.isWord = true ∧ k ≠ .dot ∨ op.isWord = false ∧ (k = .minus ∨
    k = .bitNot)) (one : Spells c front first) : Spells c ([token] ++ front) (.unary type op token first) := by
  obtain ⟨a, b, spelled, starts', ends, -⟩ := one.spelled
  have inside := one.handles
  have handles : Comprises c ([token] ++ front) (Expr.unary type op token first).handles := by
    simp only [Expr.handles]
    grind
  refine ⟨?_, handles⟩
  rcases kinds with ⟨word, plain⟩ | ⟨sign, signs⟩
  · have whole := (Spelled.token same (word_of_starts starts)).blank spelled plain (not_dot_of_starts starts')
    refine ⟨k, b, ?_, starts, ends, by simp [isSelection]⟩
    simpa [Expr.textWith, word] using whole
  · have whole := (Spelled.token same (word_of_starts starts)).close spelled (fits_opened starts' (by tauto))
    refine ⟨k, b, ?_, starts, ends, by simp [isSelection]⟩
    simpa [Expr.textWith, sign] using whole

theorem paren {opening closing : Handle} (open_ : Spelled c [opening] "(" .openParen .openParen)
    (one : Spells c front first) (close : Spelled c [closing] ")" .closeParen .closeParen) :
    Spells c ([opening] ++ front ++ [closing]) (.paren type opening first closing) := by
  obtain ⟨a, b, spelled, starts, ends, -⟩ := one.spelled
  have whole := (open_.close spelled (fits_opened starts (.inl rfl))).close close rfl
  refine ⟨⟨_, _, whole, rfl, rfl, by simp [isSelection]⟩, ?_⟩
  have inside := one.handles
  simp only [Expr.handles]
  grind

theorem range {opening dots closing : Handle} (open_ : Spelled c [opening] "(" .openParen .openParen)
    (one : Spells c front first) (dot : Spelled c [dots] ".." .doubleDot .doubleDot) (two : Spells c back second)
    (close : Spelled c [closing] ")" .closeParen .closeParen) :
    Spells c ([opening] ++ front ++ [dots] ++ back ++ [closing]) (.range type opening first dots second closing) := by
  obtain ⟨a, b, low, starts, ends, -⟩ := one.spelled
  obtain ⟨a', b', high, starts', ends', -⟩ := two.spelled
  have left := (open_.close low (fits_opened starts (.inl rfl))).close dot (fits_doubleDot ends)
  have whole := (left.close high (fits_opened starts' (by simp))).close close rfl
  refine ⟨⟨_, _, whole, rfl, rfl, by simp [isSelection]⟩, ?_⟩
  have inside := one.handles
  have inside' := two.handles
  simp only [Expr.handles]
  grind

theorem set {opening closing : Handle} {elements : List Expr} (open_ : Spelled c [opening] "(" .openParen .openParen)
    (listed : Listed c used (elements.map (·.textWith c.word))) (handles : Comprises c used (Expr.handlesAll elements))
    (close : Spelled c [closing] ")" .closeParen .closeParen) :
    Spells c ([opening] ++ used ++ [closing]) (.set type opening elements closing) := by
  obtain ⟨a, b, spelled, starts, ends⟩ := listed
  have whole := (open_.close spelled (fits_opened starts (.inl rfl))).close close rfl
  rw [← Expr.textsWith_eq] at whole
  refine ⟨⟨_, _, whole, rfl, rfl, by simp [isSelection]⟩, ?_⟩
  simp only [Expr.handles]
  grind

theorem field {dot member : Handle} (one : Spells c front first) (selects : isSelection first = true)
    (point : Spelled c [dot] "." .dot .dot) (same : (c.lexed member).kind = .identifier) :
    Spells c (front ++ [dot] ++ [member]) (.field type first dot member) := by
  obtain ⟨a, b, spelled, starts, -, last⟩ := one.spelled
  have fit : fits b .dot = true := by
    rcases last selects with rfl | rfl <;> rfl
  have whole := (spelled.close point fit).close (.token same rfl) rfl
  refine ⟨⟨_, _, whole, starts, rfl, fun _ => .inl rfl⟩, ?_⟩
  have inside := one.handles
  simp only [Expr.handles]
  grind

theorem index {opening closing : Handle} (one : Spells c front first)
    (open_ : Spelled c [opening] "[" .openBracket .openBracket) (two : Spells c back second)
    (close : Spelled c [closing] "]" .closeBracket .closeBracket) :
    Spells c (front ++ [opening] ++ back ++ [closing]) (.index type first opening second closing) := by
  obtain ⟨a, b, array, starts, -, -⟩ := one.spelled
  obtain ⟨a', b', i, starts', -, -⟩ := two.spelled
  have whole := ((array.close open_ rfl).close i (fits_opened starts' (by simp))).close close rfl
  refine ⟨⟨_, _, whole, starts, rfl, fun _ => .inr rfl⟩, ?_⟩
  have inside := one.handles
  have inside' := two.handles
  simp only [Expr.handles]
  grind

theorem callNone {opening closing : Handle} (one : Spells c front first)
    (open_ : Spelled c [opening] "(" .openParen .openParen) (close : Spelled c [closing] ")" .closeParen .closeParen) :
    Spells c (front ++ [opening] ++ [closing]) (.call type first opening [] closing) := by
  obtain ⟨a, b, function, starts, -, -⟩ := one.spelled
  have whole := (function.close open_ rfl).close close rfl
  refine ⟨⟨a, .closeParen, ?_, starts, rfl, by simp [isSelection]⟩, ?_⟩
  · simpa [Expr.textWith, Expr.textsWith] using whole
  · have inside := one.handles
    simp only [Expr.handles, Expr.handlesAll]
    grind

theorem call {opening closing : Handle} {args : List Expr} (one : Spells c front first)
    (open_ : Spelled c [opening] "(" .openParen .openParen) (listed : Listed c used (args.map (·.textWith c.word)))
    (handles : Comprises c used (Expr.handlesAll args)) (close : Spelled c [closing] ")" .closeParen .closeParen) :
    Spells c (front ++ [opening] ++ used ++ [closing]) (.call type first opening args closing) := by
  obtain ⟨a, b, function, starts, -, -⟩ := one.spelled
  obtain ⟨a', b', arguments, starts', -⟩ := listed
  have whole := ((function.close open_ rfl).close arguments (fits_opened starts' (.inl rfl))).close close rfl
  rw [← Expr.textsWith_eq] at whole
  refine ⟨⟨_, _, whole, starts, rfl, by simp [isSelection]⟩, ?_⟩
  have inside := one.handles
  simp only [Expr.handles]
  grind

theorem integerFunction {function opening closing : Handle} (same : (c.lexed function).kind = .identifier)
    (open_ : Spelled c [opening] "(" .openParen .openParen) (one : Spells c front first)
    (close : Spelled c [closing] ")" .closeParen .closeParen) : Spells c ([function] ++ [opening] ++ front ++ [closing])
    (.integerFunction type function opening first closing) := by
  obtain ⟨a, b, spelled, starts, -, -⟩ := one.spelled
  have whole := (((Spelled.token same rfl).close open_ rfl).close spelled
    (fits_opened starts (.inl rfl))).close close rfl
  refine ⟨⟨_, _, whole, rfl, rfl, by simp [isSelection]⟩, ?_⟩
  have inside := one.handles
  simp only [Expr.handles]
  grind

theorem stringIndexed {measured : Bool} {id opening closing : Handle} {k : TokenKind} (same : (c.lexed id).kind = k)
    (starts : startsExpr k = true) (open_ : Spelled c [opening] "[" .openBracket .openBracket)
    (one : Spells c front first) (close : Spelled c [closing] "]" .closeBracket .closeBracket) :
    Spells c ([id] ++ [opening] ++ front ++ [closing]) (.stringIndexed type measured id opening first closing) := by
  obtain ⟨a, b, spelled, starts', -, -⟩ := one.spelled
  have whole := (((Spelled.token same (word_of_starts starts)).close open_ rfl).close spelled
    (fits_opened starts' (by simp))).close close rfl
  refine ⟨⟨_, _, whole, starts, rfl, by simp [isSelection]⟩, ?_⟩
  have inside := one.handles
  simp only [Expr.handles]
  grind

private theorem afterWord {id word : Handle} {k w : TokenKind} (same : (c.lexed id).kind = k)
    (starts : startsExpr k = true)
    (same' : (c.lexed word).kind = w) (wording : Lexer.isWord w = true) (plain : w ≠ .dot)
    (one : Spells c front first) :
    ∃ b, Spelled c ([id] ++ [word] ++ front) (c.word id ++ " " ++ c.word word ++ " " ++ first.textWith c.word) k b ∧
      endsExpr b = true := by
  obtain ⟨a, b, spelled, starts', ends, -⟩ := one.spelled
  have whole := ((Spelled.token same (word_of_starts starts)).blank (.token same' wording)
    (not_dot_of_starts starts) plain).blank spelled plain
    (not_dot_of_starts starts')
  exact ⟨b, whole, ends⟩

theorem stringAt {id at_ : Handle} (same : (c.lexed id).kind = .stringName) (same' : (c.lexed at_).kind = .kwAt)
    (one : Spells c front first) : Spells c ([id] ++ [at_] ++ front) (.stringAt type id at_ first) := by
  obtain ⟨b, spelled, ends⟩ := afterWord same rfl same' rfl (by decide) one
  refine ⟨⟨_, _, spelled, rfl, ends, by simp [isSelection]⟩, ?_⟩
  have inside := one.handles
  simp only [Expr.handles]
  grind

theorem stringIn {counted : Bool} {id in_ : Handle} {k : TokenKind} (same : (c.lexed id).kind = k)
    (starts : startsExpr k = true) (same' : (c.lexed in_).kind = .kwIn)
    (one : Spells c front first) : Spells c ([id] ++ [in_] ++ front) (.stringIn type counted id in_ first) := by
  obtain ⟨b, spelled, ends⟩ := afterWord same starts same' rfl (by decide) one
  refine ⟨⟨_, _, spelled, starts, ends, by simp [isSelection]⟩, ?_⟩
  have inside := one.handles
  simp only [Expr.handles]
  grind

theorem percentage {percent : Handle} (one : Spells c front first) (same : (c.lexed percent).kind = .modulo) :
    Spells c (front ++ [percent]) (.percentage type first percent) := by
  obtain ⟨a, b, spelled, starts, -, -⟩ := one.spelled
  refine ⟨⟨_, _, spelled.close (.token same rfl) rfl, starts, rfl, by simp [isSelection]⟩, ?_⟩
  have inside := one.handles
  simp only [Expr.handles]
  grind

variable {third : Expr} {rest : List Handle}

theorem ofAnchored {of_ keyword : Handle} {k : TokenKind} (one : Spells c front first)
    (same : (c.lexed of_).kind = .kwOf) (two : Spells c back second) (same' : (c.lexed keyword).kind = k)
    (word : Lexer.isWord k = true) (plain : k ≠ .dot) (three : Spells c rest third) : Spells c
    (front ++ [of_] ++ back ++ [keyword] ++ rest) (.ofAnchored type first of_ second keyword third) := by
  obtain ⟨a, b, left, starts, ends⟩ := one.infixed (.token same rfl) (by decide) two
  obtain ⟨a', b', right, starts', ends', -⟩ := three.spelled
  have whole := (left.blank (.token same' word) (not_dot_of_ends ends) plain).blank right plain
    (not_dot_of_starts starts')
  refine ⟨⟨_, _, whole, starts, ends', by simp [isSelection]⟩, ?_⟩
  have inside := one.handles
  have inside' := two.handles
  have inside'' := three.handles
  simp only [Expr.handles]
  grind

theorem forOf {for_ of_ colon : Handle} (same : (c.lexed for_).kind = .kwFor) (one : Spells c front first)
    (same' : (c.lexed of_).kind = .kwOf) (two : Spells c back second) (same'' : (c.lexed colon).kind = .colon)
    (three : Spells c rest third) :
    Spells c ([for_] ++ front ++ [of_] ++ back ++ [colon] ++ rest) (.forOf type for_ first of_ second colon third) := by
  obtain ⟨a, b, quantifier, starts, ends, -⟩ := one.spelled
  obtain ⟨a', b', members, starts', ends', -⟩ := two.spelled
  obtain ⟨a'', b'', body, starts'', ends'', -⟩ := three.spelled
  have left := (Spelled.token same rfl).blank quantifier (by decide) (not_dot_of_starts starts)
  have middle := (left.blank (.token same' rfl) (not_dot_of_ends ends) (by decide)).blank members (by decide)
    (not_dot_of_starts starts')
  have whole := (middle.blank (.token same'' rfl) (not_dot_of_ends ends') (by decide)).blank body (by decide)
    (not_dot_of_starts starts'')
  refine ⟨⟨_, _, whole, rfl, ends'', by simp [isSelection]⟩, ?_⟩
  have inside := one.handles
  have inside' := two.handles
  have inside'' := three.handles
  simp only [Expr.handles]
  grind

theorem forIn {for_ in_ colon : Handle} {vars : List Handle} (same : (c.lexed for_).kind = .kwFor)
    (one : Spells c front first)
    (listed : Listed c used (vars.map c.word)) (among : Comprises c used vars) (same' : (c.lexed in_).kind = .kwIn)
    (two : Spells c back second) (same'' : (c.lexed colon).kind = .colon) (three : Spells c rest third) :
    Spells c ([for_] ++ front ++ used ++ [in_] ++ back ++ [colon] ++ rest)
      (.forIn type for_ first vars in_ second colon third) := by
  obtain ⟨a, b, quantifier, starts, ends, -⟩ := one.spelled
  obtain ⟨x, y, names, begins, finishes⟩ := listed
  obtain ⟨a', b', iterable, starts', ends', -⟩ := two.spelled
  obtain ⟨a'', b'', body, starts'', ends'', -⟩ := three.spelled
  have left := ((Spelled.token same rfl).blank quantifier (by decide) (not_dot_of_starts starts)).blank names
    (not_dot_of_ends ends) (not_dot_of_starts begins)
  have middle := (left.blank (.token same' rfl) (not_dot_of_ends finishes) (by decide)).blank iterable (by decide)
    (not_dot_of_starts starts')
  have whole := (middle.blank (.token same'' rfl) (not_dot_of_ends ends') (by decide)).blank body (by decide)
    (not_dot_of_starts starts'')
  refine ⟨⟨_, _, whole, rfl, ends'', by simp [isSelection]⟩, ?_⟩
  have inside := one.handles
  have inside' := two.handles
  have inside'' := three.handles
  simp only [Expr.handles]
  grind

end Spells

/-! ### Texts that are taken apart -/

section

variable {text : String} {left right : TokenKind} {bytes : Bytes}

/-- Marks that go on no word. -/
def isLoose (kind : TokenKind) : Bool :=
  [.openParen, .closeParen, .openBracket, .closeBracket, .comma, .modulo].contains kind

private theorem fits_cases (fit : fits left right = true) : Lexer.isOpen left = true ∨ isLoose right = true ∨
    (right = .doubleDot ∧ left ≠ .dot) ∨ (right = .dot ∧ left ≠ .dot) ∨ left = .dot ∧ right = .identifier := by
  unfold fits at fit
  split at fit
  case h_7 => exact .inr (.inr (.inl ⟨rfl, by simpa using fit⟩))
  case h_8 =>
    refine .inr (.inr (.inr (.inl ⟨rfl, ?_⟩)))
    rintro rfl
    cases fit
  case h_9 =>
    split at fit
    case h_6 => exact .inr (.inr (.inr (.inr ⟨rfl, by simpa using fit⟩)))
    case h_7 => cases fit
    all_goals exact .inl rfl
  all_goals exact .inr (.inl rfl)

private theorem loose_of_begins (mark : isLoose right = true) (begins : Lexer.Begins right bytes) :
    Lexer.Loose bytes ∧ ∀ b ∈ bytes.head?, b ≠ 0x2E ∧ Lexer.isDigit b = false := by
  have marks : ∃ b more, bytes = b :: more ∧ b ∈ Lexer.looseBytes ∧ b ≠ 0x2E ∧ Lexer.isDigit b = false := by
    simp only [isLoose, List.contains_cons, List.contains_nil, Bool.or_false, Bool.or_eq_true, beq_iff_eq] at mark
    rcases mark with rfl | rfl | rfl | rfl | rfl | rfl
    all_goals
      obtain ⟨more, rfl⟩ := begins.fixed _ rfl
      exact ⟨_, _, rfl, by decide, by decide, rfl⟩
  obtain ⟨b, more, rfl, listed, other, digit⟩ := marks
  refine ⟨⟨by simpa using listed, fun _ _ same => absurd (List.cons.inj same).1 other⟩, by simpa using ⟨other, digit⟩⟩

theorem digit_of_fits (fit : fits .dot right = true) (begins : Lexer.Begins right bytes) :
    ∀ b ∈ bytes.head?, Lexer.isDigit b = false := by
  rcases fits_cases fit with opens | mark | ⟨_, other⟩ | ⟨_, other⟩ | ⟨_, rfl⟩
  · cases opens
  · exact fun b head => ((loose_of_begins mark begins).2 b head).2
  · exact absurd rfl other
  · exact absurd rfl other
  · obtain ⟨b, more, rfl, letter⟩ := begins.letter rfl
    obtain ⟨_, _, _, digit, _⟩ := Lexer.word_lead letter
    simpa using digit

theorem leaves_of_fits (fit : fits left right = true) (begins : Lexer.Begins right bytes) :
    Lexer.Leaves left bytes := by
  rcases fits_cases fit with opens | mark | ⟨rfl, other⟩ | ⟨rfl, other⟩ | ⟨rfl, rfl⟩
  · exact .inl opens
  · obtain ⟨loose, head⟩ := loose_of_begins mark begins
    by_cases dot : left = .dot
    · exact .inr (.inl ⟨dot, fun point => (head _ point).1 rfl⟩)
    · exact .inr (.inr ⟨dot, loose⟩)
  · obtain ⟨more, rfl⟩ := begins.fixed _ rfl
    refine .inr (.inr ⟨other, fun b head => Option.some.inj head ▸ by decide, fun b more same => ?_⟩)
    obtain rfl : 0x2E = b := (List.cons.inj (List.cons.inj same).2).1
    rfl
  · have dotted := begins.dotted rfl
    obtain ⟨more, rfl⟩ := begins.fixed _ rfl
    exact .inr (.inr ⟨other, fun b head => Option.some.inj head ▸ by decide, dotted⟩)
  · obtain ⟨b, more, rfl, letter⟩ := begins.letter rfl
    refine .inr (.inl ⟨rfl, fun point => ?_⟩)
    obtain rfl : b = 0x2E := Option.some.inj point
    cases letter

/-- The lexer found the token. If it is a regular expression, there is more to it than backslashes. -/
structure Attested (a : Token) : Prop where
  found : ∃ file s s', Lexer.step file s = .found a s'
  clear : a.kind = .regexp → Lexer.onlyBackslashes (shown a) = false

/-- The tokens are those of the handles, but for where they stand. -/
def Resemble (c : Pairing) (used : List Handle) (words : List Token) : Prop :=
  List.Forall₂ (fun h a => a.kind = (c.lexed h).kind ∧ a.literal = (c.lexed h).literal) used words

private theorem plain_of_word {kind : TokenKind} (word : Lexer.isWord kind = true) :
    kind ≠ .openBrace ∧ Lexer.modeAfter .normal kind = .normal := by
  revert word
  cases kind <;> decide

private theorem lexed_first {file : Option String} {s : Lexer.State} {h : Handle} {later : List Handle} {rest : Bytes}
    (word : Lexer.isWord (c.lexed h).kind = true) (again : Lexer.Reread (c.lexed h) rest)
    (left : s.Left (Bytes.ofText (shown (c.lexed h)) ++ rest))
    (more : ∀ s' : Lexer.State, s'.Left rest → ∃ words, Lexer.lexed file s' = .ok words ∧ Resemble c later words) :
    ∃ words, Lexer.lexed file s = .ok words ∧ Resemble c (h :: later) words := by
  obtain ⟨location, s', left', whole⟩ :=
    @Lexer.lexed_word file _ _ _ _ _ left again.found (plain_of_word word) again.made
  obtain ⟨words, found, resemble⟩ := more s' left'
  exact ⟨{ kind := (c.lexed h).kind, literal := (c.lexed h).literal, location } :: words,
    by rw [whole, found]; rfl, .cons ⟨rfl, rfl⟩ resemble⟩

theorem Spaced.lexed (spaced : Spaced c used text) (words : ∀ h ∈ used, Lexer.isWord (c.lexed h).kind = true)
    (attested : ∀ h ∈ used, Attested (c.lexed h) ∧ c.word h = shown (c.lexed h)) (file : Option String) :
    (∀ h ∈ used.head?, Lexer.Begins (c.lexed h).kind (Bytes.ofText text)) ∧
      ∀ s : Lexer.State, s.Left (Bytes.ofText text) → ∃ found, Lexer.lexed file s = .ok found ∧
      Resemble c used found := by
  have again {h : Handle} (member : h ∈ used) {rest : Bytes} (leaves : Lexer.Leaves (c.lexed h).kind rest) :
      Lexer.Reread (c.lexed h) rest := by
    obtain ⟨⟨⟨_, _, _, found⟩, clear⟩, _⟩ := attested h member
    exact Lexer.found_again found (words h member) clear leaves
  induction spaced with
  | word h =>
    have leaves : Lexer.Leaves (c.lexed h).kind [] := by
      by_cases dot : (c.lexed h).kind = .dot
      · exact .inr (.inl ⟨dot, nofun⟩)
      · exact .inr (.inr ⟨dot, Lexer.loose_nil⟩)
    have word := words h (by simp)
    have here := again (by simp) leaves
    have same : Bytes.ofText (c.word h) = Bytes.ofText (shown (c.lexed h)) ++ [] := by
      rw [(attested h (by simp)).2, List.append_nil]
    rw [same]
    refine ⟨fun k head => ?_, fun s left => ?_⟩
    · obtain rfl : h = k := Option.some.inj head
      exact Lexer.begins_of_lexeme here.found word (fun _ => nofun)
    · exact lexed_first word here left fun s' left' => ⟨[], Lexer.lexed_nil left', .nil⟩
  | @blank h k rest text left right more ih =>
    obtain ⟨begins, later⟩ := ih (fun j member => words j (List.mem_cons_of_mem _ member))
      (fun j member => attested j (List.mem_cons_of_mem _ member)) (fun member => again (List.mem_cons_of_mem _ member))
    have word := words h (by simp)
    have here := again (h := h) (by simp) (.inr (.inr ⟨left, Lexer.loose_blank (Bytes.ofText text)⟩))
    have same : Bytes.ofText (c.word h ++ " " ++ text) = Bytes.ofText (shown (c.lexed h)) ++ 0x20 ::
        Bytes.ofText text := by
      rw [Lexer.ofText_append, Lexer.ofText_append, (attested h (by simp)).2, List.append_assoc]
      rfl
    rw [same]
    refine ⟨fun j head => ?_, fun s at_ => ?_⟩
    · obtain rfl : h = j := Option.some.inj head
      exact Lexer.begins_of_lexeme here.found word (fun dot => absurd dot left)
    · refine lexed_first word here at_ fun s' left' => ?_
      obtain ⟨s'', left'', passed⟩ := @Lexer.lexed_blank file _ _ left' (begins k rfl).black
      rw [passed]
      exact later s'' left''
  | @close h k rest text fit more ih =>
    obtain ⟨begins, later⟩ := ih (fun j member => words j (List.mem_cons_of_mem _ member))
      (fun j member => attested j (List.mem_cons_of_mem _ member)) (fun member => again (List.mem_cons_of_mem _ member))
    have word := words h (by simp)
    have here := again (h := h) (by simp) (leaves_of_fits fit (begins k rfl))
    have same : Bytes.ofText (c.word h ++ text) = Bytes.ofText (shown (c.lexed h)) ++ Bytes.ofText text := by
      rw [Lexer.ofText_append, (attested h (by simp)).2]
    rw [same]
    refine ⟨fun j head => ?_, fun s at_ => lexed_first word here at_ later⟩
    obtain rfl : h = j := Option.some.inj head
    exact Lexer.begins_of_lexeme here.found word fun dot => digit_of_fits (dot ▸ fit) (begins k rfl)

end

end YaraRules.Grammar
