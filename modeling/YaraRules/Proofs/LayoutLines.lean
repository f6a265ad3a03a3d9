import Mathlib.Data.List.Chain
import Mathlib.Data.List.Forall2
import YaraRules.Layout.Lines
import YaraRules.Proofs.LaidItems
import YaraRules.Proofs.Outcomes

/-! Blank lines and braces in the canonical layout. Items go to lines in order, and each line has a row of
them. Rows above a line only change where a rule is set off, which puts a blank line above
comments. So what was found about a row when it was laid stays true of it. -/

namespace YaraRules

open Text (Firm)

namespace Layout

/-! ### Rows of items -/

namespace Item

def text : Item → String
  | .lineBreak | .fileEdge => ""
  | .comment _ _ text | .code _ text _ => text

def isComment : Item → Bool
  | .comment .. => true
  | _ => false

/-- The item is written, as all but breaks are. -/
def isShown : Item → Bool
  | .lineBreak | .fileEdge => false
  | .comment .. | .code .. => true

def isBrace : Item → Bool
  | .code kind _ _ => kind == .ruleBegin || kind == .ruleEnd
  | _ => false

/-- Nothing else comes behind the item on its line. -/
def endsLine : Item → Bool
  | .comment oneLine _ _ => oneLine
  | _ => false

def kind? : Item → Option TokenKind
  | .code kind _ _ => some kind
  | _ => none

end Item

/-- Kind of the last item but comments. -/
def lastCode (items : List Item) : Option TokenKind := (items.filterMap Item.kind?).getLast?

/-- The item behind some others is the first one of the header of a rule: a keyword that no modifier precedes. -/
def StartsHeader (before : List Item) (item : Item) : Prop :=
  item.kind? ∈ [some .kwRule, some .kwPrivate, some .kwGlobal] ∧ lastCode before ∉ [some .kwPrivate, some .kwGlobal]

/-- Rows, the last one first, end in rows of comments, if any, that a blank row or nothing precedes. -/
def Clear (above : List (List Item)) : Prop :=
  ∃ remarks rest, above = remarks ++ rest ∧ (∀ row ∈ remarks, row ≠ [] ∧ ∀ item ∈ row, item.isComment) ∧
    ∀ row ∈ rest.head?, row = []

/-- A row may stand below others, the last one first: a header that starts in it starts it and is set off, and a
brace in it starts it and only comments follow. -/
structure Follows (above : List (List Item)) (row : List Item) : Prop where
  headers : ∀ front item back, row = front ++ item :: back → StartsHeader (above.reverse.flatten ++ front) item →
    front = [] ∧ Clear above
  braces : ∀ front item back, row = front ++ item :: back → item.isBrace → front = [] ∧ ∀ other ∈ back, other.isComment

/-- Rows of a text in order. None is blank at its ends, and nowhere are two. -/
structure Canonical (rows : List (List Item)) : Prop where
  follows : ∀ front row back, rows = front ++ row :: back → Follows front.reverse row
  apart : rows.IsChain fun a b => a ≠ [] ∨ b ≠ []
  first : ∀ row ∈ rows.head?, row ≠ []
  last : ∀ row ∈ rows.getLast?, row ≠ []

/-! ### Texts of lines -/

/-- Texts in order, with a blank or nothing between two of them. -/
inductive Spelled : List String → String → Prop
  | none : Spelled [] ""
  | first (text : String) : Spelled [text] text
  | next {texts : List String} {code gap : String} (spelled : Spelled texts code) (blank : gap = "" ∨ gap = " ")
      (text : String) :
      Spelled (texts ++ [text]) (code ++ (gap ++ text))

namespace Line

/-- The items are on the line, the last of them at its end if that is a comment that ends it. -/
structure Carries (line : Line) (items : List Item) : Prop where
  empty : line.isEmpty = items.isEmpty
  remark : line.commentOnly = (!items.isEmpty && items.all Item.isComment)
  spelled : ∃ words, Spelled (words.map Item.text) line.code ∧ (line.comment = none ∧ items = words ∨
    words ≠ [] ∧ ∃ margin text, line.comment = some text ∧ items = words ++ [.comment true margin text])
  ends : ∀ item ∈ items.dropLast, ¬item.endsLine

variable {line : Line} {items : List Item} {item : Item}

private theorem carries_nothing : Carries {} [] := ⟨rfl, rfl, ⟨[], .none, .inl ⟨rfl, rfl⟩⟩, by simp⟩

private theorem blank_carries : Line.blank.Carries [] := ⟨rfl, rfl, ⟨[], .none, .inl ⟨rfl, rfl⟩⟩, by simp⟩

private theorem carries_comment {oneLine margin : Bool} {text : String} (some : text ≠ "") :
    Carries { margin, code := text, commentOnly := true } [.comment oneLine margin text] :=
  ⟨by simp [isEmpty, some], rfl, ⟨[.comment oneLine margin text], .first text, .inl ⟨rfl, rfl⟩⟩, by simp⟩

theorem Carries.settle (carries : line.Carries items) (level : Option Nat) : { line with level }.Carries items :=
  ⟨carries.empty, carries.remark, carries.spelled, carries.ends⟩

/-- All items of a line that goes on are in its code. -/
theorem Carries.open (carries : line.Carries items) (free : ∀ item ∈ items, ¬item.endsLine) :
    line.comment = none ∧ Spelled (items.map Item.text) line.code := by
  obtain ⟨words, spelled, ⟨bare, rfl⟩ | ⟨_, margin, text, _, rfl⟩⟩ := carries.spelled
  · exact ⟨bare, spelled⟩
  · exact absurd rfl (free (.comment true margin text) (by simp))

/-- A text is written on a line that goes on. -/
theorem Carries.write (carries : line.Carries items) (free : ∀ item ∈ items, ¬item.endsLine) (some : item.text ≠ "")
    {line' : Line} {gap : String} (same : line'.comment = line.comment)
    (code : line'.code = line.code ++ (gap ++ item.text)) (blank : gap = "" ∨ gap = " ")
    (first : line.isEmpty → gap = "")
    (remark : line'.commentOnly = (items.all Item.isComment && item.isComment)) : line'.Carries (items ++ [item]) := by
  obtain ⟨bare, spelled⟩ := carries.open free
  have filled : line'.code ≠ "" := by simp [code, some]
  refine ⟨?_, by simp [remark], ⟨items ++ [item], ?_, .inl ⟨same.trans bare, rfl⟩⟩, by simpa using free⟩
  · rw [isEmpty, beq_eq_false_iff_ne.mpr filled]
    simp
  · rw [code, List.map_append, List.map_singleton]
    by_cases empty : line.isEmpty = true
    · obtain rfl := List.isEmpty_iff.mp (carries.empty.symm.trans empty)
      have none : line.code = "" := by
        simp only [isEmpty, Bool.and_eq_true, beq_iff_eq] at empty
        exact empty.1
      rw [none, first empty, String.empty_append, String.empty_append]
      exact .first _
    · exact spelled.next blank _

theorem Carries.trail (carries : line.Carries items) (free : ∀ item ∈ items, ¬item.endsLine) (some : items ≠ [])
    (margin : Bool) (text : String) : Carries { line with comment := Option.some text }
    (items ++ [.comment true margin text]) := by
  obtain ⟨_, spelled⟩ := carries.open free
  have filled : items.isEmpty = false := List.isEmpty_eq_false_iff.mpr some
  refine ⟨by simp [isEmpty], ?_, ⟨items, spelled, .inr ⟨some, margin, text, rfl, rfl⟩⟩, by simpa using free⟩
  simp [carries.remark, Item.isComment, filled]

end Line

theorem Item.Fits.firm {item : Item} (fits : item.Fits) (shown : item.isShown) (free : ¬item.endsLine) :
    Firm item.text := by
  cases item with
  | lineBreak => cases shown
  | fileEdge => cases shown
  | comment oneLine margin text =>
    obtain rfl : oneLine = false := by simpa [endsLine] using free
    exact fits
  | code kind text block => exact fits

private theorem Item.Fits.text_ne {item : Item} (fits : item.Fits) (shown : item.isShown) : item.text ≠ "" := by
  by_cases free : item.endsLine
  · cases item with
    | comment oneLine margin text =>
      obtain rfl : oneLine = true := free
      exact Text.Visible.ne_empty fits
    | _ => cases free
  · exact (fits.firm shown free).ne_empty

/-! ### Rows above each other -/

section

variable {above : List (List Item)} {row front back : List Item} {item : Item}

@[simp] theorem lastCode_comment {oneLine margin : Bool} {text : String} (before : List Item) :
    lastCode (before ++ [.comment oneLine margin text]) = lastCode before := by
  simp [lastCode, Item.kind?]

@[simp] theorem lastCode_code {kind : TokenKind} {text : String} {block : Bool} (before : List Item) :
    lastCode (before ++ [.code kind text block]) = some kind := by
  simp [lastCode, Item.kind?]

private theorem not_startsHeader_comment (comment : item.isComment) (before : List Item) :
    ¬StartsHeader before item := by
  cases item <;> simp [Item.isComment] at comment
  simp [StartsHeader, Item.kind?]

private theorem not_brace_comment (comment : item.isComment) : ¬item.isBrace := by
  cases item <;> simp [Item.isComment] at comment
  simp [Item.isBrace]

private theorem follows_comments (comments : ∀ item ∈ row, item.isComment) (above : List (List Item)) :
    Follows above row := by
  refine ⟨fun front item back split starts => ?_, fun front item back split brace => ?_⟩
  · exact absurd starts (not_startsHeader_comment (comments item (by simp [split])) _)
  · exact absurd brace (not_brace_comment (comments item (by simp [split])))

private theorem snoc_split {last : Item} {row front back : List Item} (split : row ++ [last] = front ++ item :: back) :
    front = row ∧ item = last ∧ back = [] ∨ ∃ rest, back = rest ++ [last] ∧ row = front ++ item :: rest := by
  rcases List.eq_nil_or_concat back with rfl | ⟨rest, other, rfl⟩
  · obtain ⟨rfl, same⟩ := List.append_inj' split rfl
    cases same
    exact .inl ⟨rfl, rfl, rfl⟩
  · rw [List.concat_eq_append, ← List.cons_append, ← List.append_assoc] at split
    obtain ⟨rfl, same⟩ := List.append_inj' split rfl
    cases same
    exact .inr ⟨rest, by simp, rfl⟩

theorem Follows.comment (follows : Follows above row) (comment : item.isComment) : Follows above (row ++ [item]) := by
  refine ⟨fun front other back split starts => ?_, fun front other back split brace => ?_⟩
  · obtain ⟨rfl, rfl, rfl⟩ | ⟨rest, rfl, inner⟩ := snoc_split split
    · exact absurd starts (not_startsHeader_comment comment _)
    · exact follows.headers front other rest inner starts
  · obtain ⟨rfl, rfl, rfl⟩ | ⟨rest, rfl, inner⟩ := snoc_split split
    · exact absurd brace (not_brace_comment comment)
    · obtain ⟨first, comments⟩ := follows.braces front other rest inner brace
      exact ⟨first, by simpa [or_imp, forall_and, comment] using comments⟩

/-- An item other than a comment follows no brace. -/
theorem Follows.code (follows : Follows above row) (none : ∀ item ∈ row, ¬item.isBrace)
    (header : StartsHeader (above.reverse.flatten ++ row) item → row = [] ∧ Clear above)
    (brace : item.isBrace → row = []) : Follows above (row ++ [item]) := by
  refine ⟨fun front other back split starts => ?_, fun front other back split held => ?_⟩
  · obtain ⟨rfl, rfl, rfl⟩ | ⟨rest, rfl, inner⟩ := snoc_split split
    · exact header starts
    · exact follows.headers front other rest inner starts
  · obtain ⟨rfl, rfl, rfl⟩ | ⟨rest, rfl, inner⟩ := snoc_split split
    · exact ⟨brace held, fun other none => absurd none List.not_mem_nil⟩
    · exact absurd held (none other (by simp [inner]))

/-- Rows that were laid, the last one first. -/
inductive Stacked : List (List Item) → Prop
  | nil : Stacked []
  | row {above : List (List Item)} {row : List Item} (stacked : Stacked above) (follows : Follows above row)
      (some : row ≠ []) :
      Stacked (row :: above)
  | blank {above : List (List Item)} {row : List Item} (stacked : Stacked (row :: above)) (some : row ≠ []) :
      Stacked ([] :: row :: above)

theorem Stacked.tail (stacked : Stacked (row :: above)) : Stacked above := by
  cases stacked with
  | row stacked _ _ => exact stacked
  | blank stacked _ => exact stacked

theorem Stacked.follows (stacked : Stacked (row :: above)) : Follows above row := by
  cases stacked with
  | row _ follows _ => exact follows
  | blank => exact follows_comments (by simp) _

theorem Stacked.suffix {below rest : List (List Item)} (stacked : Stacked (below ++ rest)) : Stacked rest := by
  induction below with
  | nil => exact stacked
  | cons row below ih => exact ih stacked.tail

theorem Stacked.apart (stacked : Stacked above) : above.IsChain fun a b => b ≠ [] ∨ a ≠ [] := by
  induction stacked with
  | nil => exact .nil
  | row _ _ some ih => exact List.isChain_cons.mpr ⟨fun _ _ => .inr some, ih⟩
  | blank _ some ih =>
    refine List.isChain_cons.mpr ⟨fun row first => ?_, ih⟩
    cases first
    exact .inl some

theorem Stacked.first (stacked : Stacked above) : ∀ row ∈ above.getLast?, row ≠ [] := by
  induction stacked with
  | nil => exact nofun
  | @row above row _ _ some ih =>
    cases above with
    | nil => exact fun other last => Option.some.inj last ▸ some
    | cons => exact ih
  | blank _ _ ih => exact ih

private theorem Stacked.canonical (stacked : Stacked above) (last : above.head? ≠ some []) :
    Canonical above.reverse where
  follows front row back split := by
    rw [List.reverse_eq_iff, List.reverse_append, List.reverse_cons, List.append_assoc] at split
    rw [split] at stacked
    exact stacked.suffix.follows
  apart := List.isChain_reverse.mpr stacked.apart
  first row head := stacked.first row (by rwa [← List.head?_reverse])
  last row tail none := last (by rwa [List.getLast?_reverse, Option.mem_def, none] at tail)

end

/-! ### Pages -/

namespace Page

/-- What was placed is on the rows above, the last one first, and on the current one. The page knows the kind of the
last item, and that a brace ends a row. -/
structure Shows (p : Page) (placed : List Item) (above : List (List Item)) (now : List Item) : Prop where
  lines : List.Forall₂ Line.Carries p.above above
  line : p.current.Carries now
  stacked : Stacked above
  follows : Follows above now
  whole : above.reverse.flatten ++ now = placed
  last : p.last = lastCode placed
  pending : (∃ item ∈ now, item.isBrace) → p.breakPending

/-- The current line goes on. -/
structure Ready (p : Page) (placed : List Item) (above : List (List Item)) (now : List Item) :
    Prop extends Shows p placed above now where
  free : ∀ item ∈ now, ¬item.endsLine

/-- The next item starts a line. -/
def Fresh (p : Page) (placed : List Item) : Prop := p.breakPending = false ∧ ∃ above, p.Ready placed above []

/-- The next item may stand on the current line. -/
def Open (p : Page) (placed : List Item) : Prop := p.breakPending = false ∧ ∃ above now, p.Ready placed above now

section

variable {p : Page} {placed : List Item} {above : List (List Item)} {now : List Item} {kind : TokenKind}
    {text : String} {block : Bool}

theorem Fresh.open (fresh : p.Fresh placed) : p.Open placed := ⟨fresh.1, fresh.2.choose, [], fresh.2.choose_spec⟩

theorem Shows.breakLine (shows : p.Shows placed above now) : p.breakLine.breakPending = false ∧
    p.breakLine.Ready placed (if now = [] then above else now :: above) [] := by
  unfold Page.breakLine
  dsimp only
  have same := shows.line.empty
  by_cases none : now = []
  · rw [if_pos (by rw [same, none]; rfl), if_pos none]
    subst none
    exact ⟨rfl, ⟨shows.lines, shows.line, shows.stacked, shows.follows, shows.whole, shows.last, by simp⟩, by simp⟩
  · have filled : p.current.isEmpty = false := same.trans (List.isEmpty_eq_false_iff.mpr none)
    rw [if_neg (by simp [filled]), if_neg none]
    refine ⟨rfl, ⟨.cons shows.line shows.lines, Line.carries_nothing, .row shows.stacked shows.follows none,
      follows_comments (by simp) _, ?_,
      shows.last, by simp⟩, by simp⟩
    simpa using shows.whole

private theorem Shows.breakLine_fresh (shows : p.Shows placed above now) : p.breakLine.Fresh placed :=
  ⟨shows.breakLine.1, _, shows.breakLine.2⟩

theorem Ready.congr {other : Page} (ready : p.Ready placed above now) (lines : other.above = p.above)
    (line : other.current = p.current) (last : other.last = p.last)
    (pending : other.breakPending = p.breakPending) : other.Ready placed above now := by
  refine ⟨⟨lines ▸ ready.lines, line ▸ ready.line, ready.stacked, ready.follows, ready.whole, last.trans ready.last,
    ?_⟩, ready.free⟩
  rw [pending]
  exact ready.pending

theorem Open.congr {other : Page} (opened : p.Open placed) (lines : other.above = p.above)
    (line : other.current = p.current) (last : other.last = p.last)
    (pending : other.breakPending = p.breakPending) : other.Open placed := by
  obtain ⟨settled, above, now, ready⟩ := opened
  exact ⟨pending.trans settled, above, now, ready.congr lines line last pending⟩

theorem Shows.blankLine (shows : p.Shows placed above now) : p.blankLine.Fresh placed := by
  obtain ⟨settled, rows, ready⟩ := shows.breakLine_fresh
  unfold Page.blankLine
  dsimp only
  split_ifs with filled
  · refine ⟨settled, _, ⟨.cons Line.blank_carries ready.lines, ready.line, ?_, follows_comments (by simp) _, ?_,
      ready.last, by simp⟩, ready.free⟩
    · have lines := ready.lines
      have stacked := ready.stacked
      generalize p.breakLine.above = done at lines filled
      cases lines with
      | nil => cases filled
      | cons carries _ => exact .blank stacked fun none => by simp [carries.empty, none] at filled
    · simpa using ready.whole
  · exact ⟨settled, _, ready⟩

theorem Ready.separate (ready : p.Ready placed above now) :
    p.separate.Fresh placed ∨ p.separate.Ready placed above now ∧ p.separate.breakPending = p.breakPending := by
  unfold Page.separate
  split_ifs
  · obtain ⟨settled, above, fresh⟩ := ready.blankLine
    exact .inl ⟨settled, above, fresh.congr rfl rfl rfl rfl⟩
  · exact .inr ⟨ready.congr rfl rfl rfl rfl, rfl⟩

theorem Open.separate (opened : p.Open placed) : p.separate.Open placed := by
  obtain ⟨settled, above, now, ready⟩ := opened
  rcases ready.separate with fresh | ⟨same, pending⟩
  · exact fresh.open
  · exact ⟨pending.trans settled, above, now, same⟩

theorem Open.breakLine (opened : p.Open placed) : p.breakLine.Fresh placed := by
  obtain ⟨_, _, _, ready⟩ := opened
  exact ready.breakLine_fresh

theorem Open.ite {c : Bool} {other : Page} (yes : p.Open placed) (no : other.Open placed) :
    (if c then p else other).Open placed := by
  split_ifs
  · exact yes
  · exact no

private theorem setOff_comment {line : Line} (comment : line.commentOnly) (rest : List Line) :
    setOff (line :: rest) = line :: setOff rest := by
  unfold setOff
  dsimp only
  rw [List.takeWhile_cons_of_pos (by exact comment), List.dropWhile_cons_of_pos (by exact comment)]
  split
  · rfl
  · split_ifs <;> rfl

private theorem setOff_other {line : Line} (other : ¬line.commentOnly) (rest : List Line) :
    setOff (line :: rest) = if line.isEmpty then line :: rest else .blank :: line :: rest := by
  unfold setOff
  dsimp only
  rw [List.takeWhile_cons_of_neg (by exact other), List.dropWhile_cons_of_neg (by exact other)]
  rfl

private theorem setOff_stacked {done : List Line} (lines : List.Forall₂ Line.Carries done above)
    (stacked : Stacked above) : ∃ above', List.Forall₂ Line.Carries (setOff done) above' ∧ Stacked above' ∧
    above'.reverse.flatten = above.reverse.flatten ∧ Clear above' := by
  induction lines with
  | nil => exact ⟨[], .nil, .nil, rfl, [], [], rfl, by simp, nofun⟩
  | @cons line row done above carries lines ih =>
    by_cases comment : line.commentOnly = true
    · have remark : row ≠ [] ∧ ∀ item ∈ row, item.isComment := by
        simpa [carries.remark] using comment
      obtain ⟨above', placed, stacked', same, remarks, rest, rfl, comments, clear⟩ := ih stacked.tail
      refine ⟨row :: (remarks ++ rest), setOff_comment comment done ▸ .cons carries placed,
        .row stacked' (follows_comments remark.2 _) remark.1, ?_, row :: remarks, rest, rfl,
        List.forall_mem_cons.mpr ⟨remark, comments⟩, clear⟩
      rw [List.reverse_cons, List.flatten_append, same, List.reverse_cons, List.flatten_append]
    · rw [setOff_other comment]
      split_ifs with empty
      · have none : row = [] := List.isEmpty_iff.mp (carries.empty.symm.trans empty)
        exact ⟨row :: above, .cons carries lines, stacked, rfl, [], _, rfl,
          by simp, fun _ head => Option.some.inj head ▸ none⟩
      · have some : row ≠ [] := fun none => empty (by rw [carries.empty, none]; rfl)
        exact ⟨[] :: row :: above, .cons Line.blank_carries (.cons carries lines), .blank stacked some,
          by simp, [], _, rfl, by simp, fun _ head => (Option.some.inj head).symm⟩

theorem Shows.separateRule (shows : p.Shows placed above now) : p.separateRule.breakPending = false ∧
    ∃ above', p.separateRule.Ready placed above' [] ∧ Clear above' := by
  obtain ⟨settled, ready⟩ := shows.breakLine
  obtain ⟨above', lines, stacked, same, clear⟩ := setOff_stacked ready.lines ready.stacked
  have whole : above'.reverse.flatten ++ [] = placed := by
    rw [same]
    exact ready.whole
  exact ⟨settled, above', ⟨⟨lines, ready.line, stacked, follows_comments (by simp) _, whole, ready.last, by simp⟩,
    ready.free⟩, clear⟩

private theorem startsRule_iff (last : p.last = lastCode placed) :
    p.startsRule kind ↔ StartsHeader placed (.code kind text block) := by
  simp [startsRule, StartsHeader, Item.kind?, last, or_assoc]

private theorem startsHeader_plain (header : StartsHeader placed (.code kind text block)) :
    startsLine kind = false := by
  have kinds := header.1
  simp only [Item.kind?, List.mem_cons, Option.some.injEq, List.not_mem_nil, or_false] at kinds
  rcases kinds with rfl | rfl | rfl <;> rfl

/-- Behind a brace a new line begins, and so it does before a brace and before a header, which is set off. -/
theorem Ready.makeRoom (ready : p.Ready placed above now) (kind : TokenKind) : (p.makeRoom kind).breakPending = false ∧
    ∃ above now, (p.makeRoom kind).Ready placed above now ∧ (startsLine kind → now = []) ∧
      ∀ text block, StartsHeader placed (.code kind text block) → now = [] ∧ Clear above := by
  unfold Page.makeRoom
  extract_lets pending header apart block inner closed settled
  have one : pending.Open placed := by
    unfold pending
    split_ifs with waits
    · exact ready.breakLine_fresh.open
    · exact ⟨by simpa using waits, _, _, ready⟩
  have two : header.Open placed := .ite (one.congr rfl rfl rfl rfl) one
  have three : apart.Open placed := two.separate
  have same : inner.Open placed := three.congr rfl rfl rfl rfl
  have four : closed.Open placed := .ite (.ite same.breakLine.open same) three
  by_cases heads : closed.startsRule kind = true
  · obtain ⟨_, _, _, shows⟩ := four
    obtain ⟨free, rows, fresh, clear⟩ := shows.separateRule
    -- No other break comes once a header is set off.
    have header : StartsHeader placed (.code kind "" false) := (startsRule_iff shows.last).mp heads
    have plain : startsLine kind = false := startsHeader_plain header
    unfold settled
    rw [if_pos heads, plain]
    exact ⟨free, rows, [], fresh, fun _ => rfl, fun _ _ _ => ⟨rfl, clear⟩⟩
  · have five : settled.Open placed := by
      unfold settled
      rwa [if_neg heads]
    have none (text : String) (block : Bool) : ¬StartsHeader placed (.code kind text block) := by
      obtain ⟨_, _, _, shows⟩ := four
      exact fun header => heads ((startsRule_iff shows.last).mpr header)
    split_ifs with starts
    · obtain ⟨free, rows, fresh⟩ := five.breakLine
      exact ⟨free, rows, [], fresh, fun _ => rfl, fun _ _ header => absurd header (none _ _)⟩
    · obtain ⟨free, rows, words, shows⟩ := five
      exact ⟨free, rows, words, shows, fun same => absurd same starts, fun _ _ header => absurd header (none _ _)⟩

/-- What a line gets: a blank behind the word before, unless the kinds are joined, and the text. -/
theorem write_current (p : Page) (kind : TokenKind) (text : String) :
    (p.write kind text).current.comment = p.current.comment ∧
    (p.write kind text).current.commentOnly = (p.current.isEmpty && p.current.commentOnly) ∧
    (p.write kind text).current.code =
      p.current.code ++ ((if !p.current.isEmpty && p.last.all (spaced · kind) then " " else "") ++ text) := by
  unfold write
  by_cases empty : p.current.isEmpty = true
  · simp [empty]
  · by_cases remark : p.current.commentOnly = true <;> by_cases spaces : p.last.all (spaced · kind) = true <;>
      simp [empty, remark, spaces, String.append_assoc]

theorem Ready.placeCode (ready : p.Ready placed above now) (some : (Item.code kind text block).text ≠ "") :
    ∃ above now, (p.placeCode kind text block).Ready (placed ++ [.code kind text block]) above now ∧ now ≠ [] := by
  obtain ⟨free, rows, words, room, starts, heads⟩ := ready.makeRoom kind
  obtain ⟨comment, remark, code⟩ := write_current (p.makeRoom kind) kind text
  -- A brace before would have ended the line.
  have others : ∀ item ∈ words, ¬item.isBrace := fun item member brace => by
    have waits := room.pending ⟨item, member, brace⟩
    rw [free] at waits
    cases waits
  have brace : (Item.code kind text block).isBrace → words = [] := fun brace => starts <| by
    simp only [Item.isBrace, Bool.or_eq_true, beq_iff_eq] at brace
    rcases brace with rfl | rfl <;> rfl
  have carries : (p.placeCode kind text block).current.Carries (words ++ [.code kind text block]) := by
    refine room.line.write room.free some comment code ?_ (fun empty => by simp [empty]) (remark.trans ?_)
    · split_ifs <;> simp
    · rw [room.line.remark, room.line.empty]
      cases words <;> simp [Item.isComment]
  have header := heads text block
  rw [← room.whole] at header
  refine ⟨rows, words ++ [.code kind text block],
    ⟨⟨room.lines, carries, room.stacked, room.follows.code others header brace, ?_, ?_, ?_⟩, ?_⟩, by simp⟩
  · rw [← List.append_assoc, room.whole]
  · rw [lastCode_code]
    rfl
  · rintro ⟨item, member, held⟩
    obtain inside | rfl := List.mem_append.mp member |>.imp_right List.mem_singleton.mp
    · exact absurd held (others item inside)
    · have kinds : kind = .ruleBegin ∨ kind = .ruleEnd := by simpa [Item.isBrace] using held
      unfold Page.placeCode Page.follow
      rcases kinds with rfl | rfl <;> simp
  · exact List.forall_mem_append.mpr ⟨room.free, by simp [Item.endsLine]⟩

/-- A page between two items. The last row is no blank one. -/
def Laid (p : Page) (placed : List Item) : Prop :=
  ∃ above now, p.Ready placed above now ∧ (now = [] → above.head? ≠ some [])

private theorem Shows.breakLine_filled (shows : p.Shows placed above now) (filled : now = [] → above.head? ≠ some []) :
    ∃ above, p.breakLine.Ready placed above [] ∧ above.head? ≠ some [] := by
  refine ⟨_, shows.breakLine.2, ?_⟩
  split_ifs with none
  · exact filled none
  · simpa using none

private theorem Shows.breakLine_laid (shows : p.Shows placed above now) (filled : now = [] → above.head? ≠ some []) :
    p.breakLine.Laid placed := by
  obtain ⟨above, ready, last⟩ := shows.breakLine_filled filled
  exact ⟨above, [], ready, fun _ => last⟩

theorem Ready.placeComment (ready : p.Ready placed above now) {oneLine margin : Bool}
    (some : (Item.comment oneLine margin text).text ≠ "") :
    (p.placeComment oneLine margin text).Laid (placed ++ [.comment oneLine margin text]) := by
  obtain ⟨rows, words, apart⟩ : ∃ above now, p.separate.Ready placed above now := by
    rcases ready.separate with ⟨_, rows, fresh⟩ | ⟨same, _⟩
    · exact ⟨rows, [], fresh⟩
    · exact ⟨_, _, same⟩
  have whole : rows.reverse.flatten ++ (words ++ [.comment oneLine margin text]) = placed ++
      [.comment oneLine margin text] := by
    rw [← List.append_assoc, apart.whole]
  have last : p.separate.last = lastCode (placed ++ [.comment oneLine margin text]) :=
    apart.last.trans (lastCode_comment _).symm
  have follows : Follows rows (words ++ [.comment oneLine margin text]) := apart.follows.comment rfl
  have pending : (∃ item ∈ words ++ [.comment oneLine margin text], item.isBrace) → p.separate.breakPending := by
    rintro ⟨item, member, brace⟩
    obtain inside | rfl := List.mem_append.mp member |>.imp_right List.mem_singleton.mp
    · exact apart.pending ⟨item, inside, brace⟩
    · exact absurd brace (not_brace_comment rfl)
  have filled : words ++ [.comment oneLine margin text] = [] → rows.head? ≠ Option.some [] := by simp
  unfold Page.placeComment
  dsimp only
  by_cases empty : p.separate.current.isEmpty = true
  · obtain rfl := List.isEmpty_iff.mp (apart.line.empty.symm.trans empty)
    rw [if_pos empty]
    have shows : Page.Shows { p.separate with current := { margin, code := text, commentOnly := true } } (placed ++
      [.comment oneLine margin text])
        rows [.comment oneLine margin text] :=
      ⟨apart.lines, Line.carries_comment some, apart.stacked, follows, whole, last, pending⟩
    cases oneLine with
    | true => exact shows.breakLine_laid filled
    | false => exact ⟨_, _, ⟨shows, by simp [Item.endsLine]⟩, filled⟩
  · have filled' : words ≠ [] := fun none => empty (by rw [apart.line.empty, none]; rfl)
    rw [if_neg empty]
    cases oneLine with
    | true =>
      have shows : Page.Shows { p.separate with current := { p.separate.current with comment := Option.some text } }
          (placed ++ [.comment true margin text]) rows (words ++ [.comment true margin text]) :=
        ⟨apart.lines, apart.line.trail apart.free filled' margin text, apart.stacked, follows, whole, last, pending⟩
      exact shows.breakLine_laid filled
    | false =>
      refine ⟨rows, words ++ [.comment false margin text],
        ⟨⟨apart.lines, ?_, apart.stacked, follows, whole, last, pending⟩, ?_⟩, filled⟩
      · refine apart.line.write apart.free some rfl (String.append_assoc ..) (.inr rfl) (fun none =>
          absurd none empty) ?_
        show p.separate.current.commentOnly = _
        rw [apart.line.remark, List.isEmpty_eq_false_iff.mpr filled']
        simp [Item.isComment]
      · exact List.forall_mem_append.mpr ⟨apart.free, by simp [Item.endsLine]⟩

theorem Laid.place (laid : p.Laid placed) {item : Item} (fits : item.Fits) :
    (p.place item).Laid (placed ++ [item].filter Item.isShown) := by
  obtain ⟨above, now, ready, filled⟩ := laid
  cases item with
  | lineBreak =>
    rw [show placed ++ [Item.lineBreak].filter Item.isShown = placed from List.append_nil placed]
    have same : Page.Ready { p with breaks := p.breaks + 1 } placed above now := ready.congr rfl rfl rfl rfl
    exact same.breakLine_laid filled
  | fileEdge =>
    rw [show placed ++ [Item.fileEdge].filter Item.isShown = placed from List.append_nil placed]
    exact ready.breakLine_laid filled
  | comment oneLine margin text => exact ready.placeComment (fits.text_ne rfl)
  | code kind text block =>
    obtain ⟨rows, words, shows, some⟩ := ready.placeCode (fits.text_ne rfl)
    exact ⟨rows, words, shows, fun none => absurd none some⟩

theorem Laid.foldl {items : List Item} (laid : p.Laid placed) (fits : ∀ item ∈ items, item.Fits) :
    (items.foldl Page.place p).Laid (placed ++ items.filter Item.isShown) := by
  induction items generalizing p placed with
  | nil => simpa using laid
  | cons item items ih =>
    obtain ⟨here, later⟩ := List.forall_mem_cons.mp fits
    have rest := ih (laid.place here) later
    rwa [List.append_assoc, ← List.filter_append] at rest

end

end Page

private theorem settleLevels_carries {above : List Line} {rows : List (List Item)}
    (lines : List.Forall₂ Line.Carries above rows) (level : Nat) :
    List.Forall₂ Line.Carries (settleLevels level above) rows := by
  induction lines generalizing level with
  | nil => exact .nil
  | cons carries _ ih =>
    unfold settleLevels
    split
    · exact .cons carries (ih _)
    · exact .cons (carries.settle _) (ih _)

/-- The lines of some items, with a row of items for each. -/
theorem lines_canonical {items : List Item} (fits : ∀ item ∈ items, item.Fits) : ∃ rows : List (List Item),
    List.Forall₂ Line.Carries (lines items) rows ∧ rows.flatten = items.filter Item.isShown ∧ Canonical rows := by
  have start : Page.Laid {} [] :=
    ⟨[], [], ⟨⟨.nil, Line.carries_nothing, .nil, follows_comments (by simp) _, rfl, rfl, by simp⟩,
      by simp⟩, fun _ => nofun⟩
  obtain ⟨above, now, ready, filled⟩ := start.foldl fits
  obtain ⟨above, done, last⟩ := ready.breakLine_filled filled
  refine ⟨above.reverse, List.forall₂_reverse_iff.mpr (settleLevels_carries done.lines 0), ?_,
    done.stacked.canonical last⟩
  simpa using done.whole

end Layout

namespace RuleFile

open Layout (Item Line)

/-- The lines of the layout of a file, with the items on each. Blank lines stand only between others, never two of them.
A header starts its line, and a blank line sets it off with the comments right above. A brace starts its line and only
comments follow it. -/
theorem Read.layout_canonical {file : RuleFile} (read : file.Read) (expand : Bool) : ∃ rows : List (List Item),
    List.Forall₂ Line.Carries (Layout.lines (Layout.items file.tokens expand)) rows ∧
    rows.flatten = (Layout.items file.tokens expand).filter Item.isShown ∧ Layout.Canonical rows :=
  Layout.lines_canonical (read.items_fit expand)

/-- A comment between two rules, the second of which has a modifier. -/
def pairedContent : Bytes := Bytes.ofText "rule a\x7bcondition:true\x7d\n//x\nprivate rule b\x7bcondition:a\x7d"

private theorem paired_lines : yields (RuleFile.ofSource {} {} 0 pairedContent) (fun file =>
    (Layout.lines (Layout.items file.tokens true)).map Line.code ==
      ["rule a", "\x7b", "condition:", "true", "\x7d", "", "//x", "private rule b", "\x7b", "condition:", "a",
      "\x7d"]) = true := by
  decide +kernel

theorem layout_canonical_pair : ∃ file, RuleFile.ofSource {} {} 0 pairedContent = .ok file ∧ ∃ rows : List (List Item),
    (Layout.lines (Layout.items file.tokens true)).map Line.code =
      ["rule a", "\x7b", "condition:", "true", "\x7d", "", "//x", "private rule b", "\x7b", "condition:", "a", "\x7d"] ∧
    List.Forall₂ Line.Carries (Layout.lines (Layout.items file.tokens true)) rows ∧ Layout.Canonical rows := by
  obtain ⟨file, done, run⟩ := yields_iff.mp paired_lines
  obtain ⟨rows, lines, _, canonical⟩ := Read.layout_canonical (.ofSource done) true
  exact ⟨file, done, rows, eq_of_beq run, lines, canonical⟩

end RuleFile

end YaraRules
