import Mathlib.Data.List.SplitBy
import YaraRules.Layout.Render
import YaraRules.Proofs.LayoutLines

/-! Lines of meta entries. Where the tokens of an entry stand next to each other, and what comes behind
them ends the line, the layout has a line for the entry alone: its key starts the line, and its value ends it. -/

namespace YaraRules

open Text (Firm)

namespace Layout

/-! ### Lines that are finished -/

/-- A token of this kind ends the line of the token before it. -/
def endsLine (kind : TokenKind) : Bool := kind == .newLine || Page.startsLine kind

/-- The item ends the line of the one before it. -/
def Item.closes : Item → Bool
  | lineBreak | fileEdge => true
  | comment _ _ _ => false
  | code kind _ _ => Page.startsLine kind

namespace Page

variable {p : Page} {code text : String} {kind last : TokenKind} {block : Bool}

private theorem mem_setOff {above : List Line} {line : Line} (member : line ∈ above) : line ∈ setOff above := by
  have parts : above.takeWhile (·.commentOnly) ++ above.dropWhile (·.commentOnly) = above :=
    List.takeWhile_append_dropWhile
  unfold setOff
  dsimp only
  split
  next none =>
    rw [none, List.append_nil] at parts
    exact parts.symm ▸ member
  next first rest some =>
    split_ifs
    · exact member
    · rw [← parts, some] at member
      rcases List.mem_append.mp member with comment | below
      · exact List.mem_append_left _ comment
      · exact List.mem_append_right _ (List.mem_cons_of_mem _ below)

/-- A line with this code and no comment at its end is finished. -/
def Keeps (p : Page) (code : String) : Prop := ∃ line ∈ p.above, line.code = code ∧ line.comment = none

/-- Such a line is finished, or being written. -/
def Holds (p : Page) (code : String) : Prop := p.Keeps code ∨ p.current.code = code ∧ p.current.comment = none

theorem Keeps.shift {q : Page} (keeps : p.Keeps code) (more : p.above ⊆ q.above) : q.Keeps code := by
  obtain ⟨line, member, same⟩ := keeps
  exact ⟨line, more member, same⟩

private theorem above_breakLine (p : Page) : p.above ⊆ p.breakLine.above := by
  unfold breakLine
  dsimp only
  split_ifs
  · exact fun _ member => member
  · exact List.subset_cons_self _ _

private theorem above_blankLine (p : Page) : p.above ⊆ p.blankLine.above := by
  unfold blankLine
  dsimp only
  split_ifs
  · exact List.Subset.trans (above_breakLine p) (List.subset_cons_self _ _)
  · exact above_breakLine p

private theorem above_separate (p : Page) : p.above ⊆ p.separate.above := by
  show p.above ⊆ (if 2 ≤ p.breaks then p.blankLine else p).above
  split_ifs
  · exact above_blankLine p
  · exact List.Subset.refl _

/-- To make room for a token, lines are ended, blank lines left, and a rule is set off. What all this keeps is kept. -/
theorem makeRoom_keeps {holds : Page → Prop} (here : holds p) (kind : TokenKind)
    (still : ∀ q q' : Page, holds q → q'.above = q.above → q'.current = q.current → q'.last = q.last → holds q')
    (line : ∀ q : Page, holds q → holds q.breakLine) (blank : ∀ q : Page, holds q → holds q.blankLine)
    (off : ∀ q : Page, holds q → holds { q with above := setOff q.above }) : holds (p.makeRoom kind) := by
  unfold makeRoom
  extract_lets pending header apart block inner closed settled
  have one : holds pending := by
    unfold pending
    split_ifs
    · exact line p here
    · exact here
  have two : holds header := by
    unfold header
    split_ifs
    · exact still pending _ one rfl rfl rfl
    · exact one
  have three : holds apart := by
    show holds { (if 2 ≤ header.breaks then header.blankLine else header) with breaks := 0 }
    split_ifs
    · exact still header.blankLine _ (blank header two) rfl rfl rfl
    · exact still header _ two rfl rfl rfl
  have four : holds closed := by
    have same : holds inner := still apart _ three rfl rfl rfl
    unfold closed
    split_ifs
    · exact line inner same
    · exact same
    · exact three
  have five : holds settled := by
    unfold settled
    split_ifs
    · exact off _ (line closed four)
    · exact four
  split_ifs
  · exact line settled five
  · exact five

private theorem above_makeRoom (p : Page) (kind : TokenKind) : p.above ⊆ (p.makeRoom kind).above := by
  refine @makeRoom_keeps p (p.above ⊆ ·.above) (List.Subset.refl _) kind ?_ ?_ ?_ ?_
  · exact fun q q' more above _ _ => above ▸ more
  · exact fun q more => List.Subset.trans more (above_breakLine q)
  · exact fun q more => List.Subset.trans more (above_blankLine q)
  · exact fun q more _ member => mem_setOff (more member)

private theorem above_comment (p : Page) (oneLine margin : Bool) (text : String) :
    p.above ⊆ (p.placeComment oneLine margin text).above := by
  have apart := above_separate p
  have broken (line : Line) : p.above ⊆ { p.separate with current := line }.breakLine.above :=
    List.Subset.trans apart (above_breakLine { p.separate with current := line })
  unfold placeComment
  dsimp only
  split_ifs
  all_goals first | exact apart | exact broken _

private theorem above_place (p : Page) (item : Item) : p.above ⊆ (p.place item).above := by
  cases item with
  | lineBreak => exact above_breakLine { p with breaks := p.breaks + 1 }
  | fileEdge => exact above_breakLine p
  | code kind text block => exact above_makeRoom p kind
  | comment oneLine margin text => exact above_comment p oneLine margin text

private theorem above_foldl (items : List Item) (p : Page) : p.above ⊆ (items.foldl place p).above := by
  induction items generalizing p with
  | nil => exact List.Subset.refl _
  | cons item items ih => exact List.Subset.trans (above_place p item) (ih (p.place item))

/-! ### The line of an entry -/

/-- The current line has this code, up to a token of this kind, and goes on. -/
structure Going (p : Page) (code : String) (last : TokenKind) : Prop where
  line : p.current.code = code ∧ p.current.comment = none
  last : p.last = some last
  settled : p.breakPending = false
  together : p.breaks = 0

theorem current_breakLine (p : Page) : p.breakLine.current.isEmpty = true := by
  unfold breakLine
  dsimp only
  split_ifs with empty
  · exact empty
  · rfl

theorem isEmpty_line {line : Line} (empty : line.isEmpty = true) : line.code = "" ∧ line.comment = none := by
  simpa [Line.isEmpty] using empty

private theorem filled_code {line : Line} (some : line.code ≠ "") : line.isEmpty = false := by
  simp [Line.isEmpty, some]

private theorem pending_breakLine (p : Page) : p.breakLine.breakPending = false := by
  unfold breakLine
  dsimp only
  split_ifs <;> rfl

private theorem breaks_breakLine (p : Page) : p.breakLine.breaks = p.breaks := by
  unfold breakLine
  dsimp only
  split_ifs <;> rfl

/-- Kinds of what stands in an entry behind its key. -/
def entryKinds : List TokenKind := [.assign, .string, .integer, .boolean, .float]

private theorem follow_pending (known : kind ∈ .metaKey :: entryKinds) (p : Page) (block : Bool) :
    (p.follow kind block).breakPending = p.breakPending := by
  simp only [entryKinds, List.mem_cons, List.not_mem_nil, or_false] at known
  unfold follow
  cases p.breakPending <;> rcases known with rfl | rfl | rfl | rfl | rfl | rfl <;> rfl

private theorem separate_same (together : p.breaks = 0) : p.separate = p := by
  obtain ⟨above, current, last, breaks, brackets, inRule, pending⟩ := p
  obtain rfl : breaks = 0 := together
  rfl

/-- A key starts a line. -/
private theorem going_key (p : Page) (text : String) (block : Bool) :
    (p.placeCode .metaKey text block).Going text .metaKey := by
  let q := (if p.breakPending then p.breakLine else p).separate
  have room : p.makeRoom .metaKey = q.breakLine := rfl
  have empty : (p.makeRoom .metaKey).current.isEmpty = true := room ▸ current_breakLine q
  obtain ⟨comment, _, code⟩ := write_current (p.makeRoom .metaKey) .metaKey text
  obtain ⟨bare, none⟩ := isEmpty_line empty
  rw [bare, empty] at code
  refine ⟨⟨code.trans (by simp), comment.trans none⟩, rfl, ?_, ?_⟩
  · rw [placeCode, follow_pending List.mem_cons_self, room]
    exact pending_breakLine q
  · show (p.makeRoom .metaKey).breaks = 0
    rw [room, breaks_breakLine]
    rfl

/-- What follows the key is written behind it. -/
private theorem Going.next (going : p.Going code last) (some : code ≠ "") (known : kind ∈ entryKinds)
    (text : String) (block : Bool) :
    (p.placeCode kind text block).Going (code ++ ((if spaced last kind then " " else "") ++ text)) kind := by
  have room : p.makeRoom kind = p := by
    unfold makeRoom
    rw [going.settled]
    simp only [entryKinds, List.mem_cons, List.not_mem_nil, or_false] at known
    rcases known with rfl | rfl | rfl | rfl | rfl <;> exact separate_same going.together
  obtain ⟨comment, _, line⟩ := write_current p kind text
  rw [going.line.1, filled_code (going.line.1.symm ▸ some), going.last] at line
  rw [placeCode, room]
  exact ⟨⟨line.trans (by simp), comment.trans going.line.2⟩, rfl,
    (follow_pending (List.mem_cons_of_mem _ known) _ _).trans going.settled, going.together⟩

private theorem keeps_breakLine (line : p.current.code = code ∧ p.current.comment = none) (some : code ≠ "") :
    p.breakLine.Keeps code := by
  unfold breakLine
  dsimp only
  rw [if_neg (by simp [filled_code (line.1.symm ▸ some)])]
  exact ⟨p.current, List.mem_cons_self, line⟩

private theorem Holds.breakLine (holds : p.Holds code) (some : code ≠ "") : p.breakLine.Keeps code :=
  holds.elim (fun keeps => keeps.shift (above_breakLine p)) fun same => keeps_breakLine same some

private theorem Going.makeRoom (going : p.Going code last) (some : code ≠ "") (starts : startsLine kind = true) :
    (p.makeRoom kind).Keeps code := by
  unfold Page.makeRoom
  rw [going.settled]
  extract_lets pending header apart block inner closed settled
  have line : header.current = p.current ∧ header.breaks = 0 := by
    unfold header
    split_ifs
    · exact ⟨rfl, rfl⟩
    · exact ⟨rfl, going.together⟩
  have same : apart.current.code = code ∧ apart.current.comment = none := by
    unfold apart
    rw [separate_same line.2, line.1]
    exact going.line
  have two : closed.Holds code := by
    unfold closed
    split_ifs
    · exact .inl (@keeps_breakLine inner code same some)
    · exact .inr same
    · exact .inr same
  have three : settled.Holds code := by
    unfold settled
    split_ifs
    · exact .inl ((two.breakLine some).shift fun _ member => mem_setOff member)
    · exact two
  rw [if_pos starts]
  exact three.breakLine some

/-- What ends the line leaves it with the code that it has. -/
private theorem Going.closed (going : p.Going code last) (some : code ≠ "") {item : Item}
    (closes : item.closes = true) : (p.place item).Keeps code := by
  cases item with
  | lineBreak => exact @keeps_breakLine { p with breaks := p.breaks + 1 } code going.line some
  | fileEdge => exact keeps_breakLine going.line some
  | code kind text block => exact going.makeRoom some closes
  | comment oneLine margin text => cases closes

end Page

private theorem settleLevels_texts (above : List Line) (level : Nat) :
    (settleLevels level above).map (fun line => (line.code, line.comment)) =
      above.map fun line => (line.code, line.comment) := by
  induction above generalizing level with
  | nil => rfl
  | cons line rest ih =>
    unfold settleLevels
    split
    · rw [List.map_cons, List.map_cons, ih]
    · rw [List.map_cons, List.map_cons, ih]

open Page (entryKinds)

/-- An entry has a line to itself. -/
private theorem lines_entry {front back : List Item} {key value : String} {kind : TokenKind} {b b' b'' : Bool}
    (some : key ≠ "") (known : kind ∈ entryKinds)
    (closes : ∀ item ∈ back.head?, item.closes = true) :
    ∃ line ∈ lines (front ++ .code .metaKey key b :: .code .assign "=" b' :: .code kind value b'' :: back),
      line.code = key ++ " = " ++ value ∧ line.comment = none := by
  have first := Page.going_key (front.foldl Page.place {}) key b
  have second := first.next some (show TokenKind.assign ∈ entryKinds by decide) "=" b'
  have third := second.next (by simp) known value b''
  have blank : Page.spaced .metaKey .assign = true ∧ Page.spaced .assign kind = true := by
    simp only [entryKinds, List.mem_cons, List.not_mem_nil, or_false] at known
    rcases known with rfl | rfl | rfl | rfl | rfl <;> decide
  rw [if_pos blank.1, if_pos blank.2] at third
  have whole : key ++ (" " ++ "=") ++ (" " ++ value) = key ++ " = " ++ value := by
    have middle : " = " = " " ++ ("=" ++ " ") := by decide
    simp only [middle, String.append_assoc]
  rw [whole] at third
  have filled : key ++ " = " ++ value ≠ "" := by simp
  generalize key ++ " = " ++ value = code at third filled ⊢
  rw [lines, List.foldl_append, List.foldl_cons, List.foldl_cons, List.foldl_cons]
  have keeps : (back.foldl Page.place (((front.foldl Page.place {}).place (.code .metaKey key b)).place
      (.code .assign "=" b') |>.place (.code kind value b''))).breakLine.Keeps code := by
    cases back with
    | nil => exact Page.keeps_breakLine third.line filled
    | cons item back =>
      have kept := third.closed filled (closes item rfl)
      exact (kept.shift (Page.above_foldl back _)).shift (Page.above_breakLine _)
  obtain ⟨line, member, same, bare⟩ := keeps
  have listed := List.mem_map_of_mem (f := fun line => (line.code, line.comment)) member
  rw [← settleLevels_texts _ 0] at listed
  obtain ⟨line', member', texts⟩ := List.mem_map.mp listed
  obtain ⟨same', bare'⟩ := Prod.mk.inj texts
  exact ⟨line', List.mem_reverse.mpr member', same'.trans same, bare'.trans bare⟩

/-! ### Items of an entry -/

variable {s : TokenStream} {back : List (Handle × Token)}

private theorem itemsOf_head (included : List (Nat × List Item))
    (ends : ∀ next ∈ back.head?, endsLine next.2.kind = true) :
    ∀ item ∈ (itemsOf s included false back).head?, item.closes = true := by
  cases back with
  | nil => exact nofun
  | cons next back =>
    have last := ends next rfl
    obtain ⟨h, token⟩ := next
    unfold itemsOf
    rw [if_neg (by simp)]
    split
    · rintro _ ⟨⟩
      rfl
    · rintro _ ⟨⟩
      simp only [endsLine, Bool.or_eq_true, beq_iff_eq] at last
      unfold itemOf
      rcases last with same | starts
      · rw [same]
        rfl
      · split
        next same => rw [same] at starts; cases starts
        next same => rw [same] at starts; cases starts
        next same => rw [same] at starts; cases starts
        next => exact starts

private theorem itemsOf_code {included : List (Nat × List Item)} {skip : Bool} {h : Handle} {token : Token}
    {rest : List (Handle × Token)} (plain : token.kind ∈ .metaKey :: entryKinds)
    (free : skip = true → token.kind ≠ .string) :
    itemsOf s included skip ((h, token) :: rest) =
      .code token.kind (s.textOf token) token.breakAfter :: itemsOf s included false rest := by
  have other : (token.kind == .kwInclude) = false ∧
      itemOf s token = .code token.kind (s.textOf token) token.breakAfter := by
    unfold itemOf
    simp only [entryKinds, List.mem_cons, List.not_mem_nil, or_false] at plain
    rcases plain with same | same | same | same | same | same <;> simp [same]
  rw [itemsOf, if_neg (by simpa using free), other.1, if_neg (by simp), other.2]

private theorem itemsOf_append (included : List (Nat × List Item)) :
    ∀ (front : List (Handle × Token)) (skip : Bool),
    ∃ before skip', itemsOf s included skip (front ++ back) = before ++ itemsOf s included skip' back
  | [], skip => ⟨[], skip, rfl⟩
  | (h, token) :: front, skip => by
    rw [List.cons_append, itemsOf]
    split_ifs
    · exact itemsOf_append included front false
    all_goals
      split
      next inner _ =>
        obtain ⟨before, skip', same⟩ := itemsOf_append included front true
        exact ⟨.fileEdge :: (inner ++ .fileEdge :: before), skip', by rw [same]; simp⟩
      next =>
        obtain ⟨before, skip', same⟩ := itemsOf_append included front false
        exact ⟨itemOf s token :: before, skip', by rw [same]; rfl⟩

/-! ### Texts -/

theorem trimEnd_firm {text : String} (firm : Firm text) : Text.trimEnd text = text := by
  obtain ⟨c, last, black⟩ := firm
  obtain ⟨rest, whole⟩ := List.head?_eq_some_iff.mp ((List.head?_reverse (l := text.toList)).trans last)
  rw [Text.trimEnd, whole, List.dropWhile_cons_of_neg (by simp [black]), ← whole, List.reverse_reverse,
    String.ofList_toList]

private theorem mem_aligned {style : LayoutStyle} {pairs : List (String × Option String)} {code : String}
    (member : (code, none) ∈ pairs) : code ∈ aligned style pairs := by
  rw [← List.flatten_splitBy (fun a b => a.2.isSome == b.2.isSome) pairs] at member
  obtain ⟨run, listed, inside⟩ := List.mem_flatten.mp member
  exact List.mem_flatMap.mpr ⟨run, listed, List.mem_map.mpr ⟨_, inside, rfl⟩⟩

/-- The text has a line with this code alone, behind its indentation. -/
def ShowsLine (style : LayoutStyle) (newline text code : String) : Prop :=
  ∃ rows : List String, text = "".intercalate (rows.map (· ++ newline)) ∧
    ∃ n, times style.indent n ++ code ∈ rows

private theorem render_line {style : LayoutStyle} {newline code : String} {lines : List Line} {line : Line}
    (member : line ∈ lines) (same : line.code = code) (bare : line.comment = none) (firm : Firm code) :
    ShowsLine style newline (render style newline lines) code := by
  let level := if line.margin then 0 else line.level.getD 0
  have written : indented style line = (times style.indent level ++ code, none) := by
    rw [indented, same, bare]
    unfold level
    split_ifs
    · simp [times]
    · rfl
  have row : times style.indent level ++ code ∈ aligned style (lines.map (indented style)) :=
    mem_aligned (written ▸ List.mem_map_of_mem member)
  refine ⟨(aligned style (lines.map (indented style))).map Text.trimEnd, ?_, level,
    List.mem_map.mpr ⟨_, row, trimEnd_firm (firm.behind _)⟩⟩
  rw [render, List.map_map]
  rfl

end Layout

/-! ### Entries -/

open Layout (endsLine ShowsLine)

/-- The tokens start with those of the entry, and what comes behind these ends the line. -/
def MetaEntry.startsAt (entry : MetaEntry) (s : TokenStream) : List (Handle × Token) → Bool
  | (k, key) :: (m, mark) :: (v, _) :: back =>
    k == entry.key && key.kind == .metaKey && m == entry.assign && mark.kind == .assign && s.textOf mark == "=" &&
      v == entry.value && back.head?.all (endsLine ·.2.kind)
  | _ => false

/-- The tokens of the entry stand next to each other, and what comes behind them ends the line. -/
def MetaEntry.isAlone (entry : MetaEntry) (s : TokenStream) : Bool := s.entries.tails.any (entry.startsAt s)

private theorem MetaEntry.split_of_alone {entry : MetaEntry} {s : TokenStream} (alone : entry.isAlone s = true) :
    ∃ front key mark value back,
      s.entries = front ++ (entry.key, key) :: (entry.assign, mark) :: (entry.value, value) :: back ∧
      key.kind = .metaKey ∧ mark.kind = .assign ∧ s.textOf mark = "=" ∧
      ∀ next ∈ back.head?, endsLine next.2.kind = true := by
  obtain ⟨tail, listed, starts⟩ := List.any_eq_true.mp alone
  obtain ⟨front, whole⟩ := List.mem_tails _ _ |>.mp listed
  unfold startsAt at starts
  split at starts
  next k key m mark v value back =>
    simp only [Bool.and_eq_true, beq_iff_eq, Option.all_eq_true] at starts
    obtain ⟨⟨⟨⟨⟨⟨rfl, named⟩, rfl⟩, marked⟩, written⟩, rfl⟩, ends⟩ := starts
    exact ⟨front, key, mark, value, back, whole.symm, named, marked, written, ends⟩
  next => cases starts

namespace TokenStream

variable {s : TokenStream}

/-- The layout of a stream has a line for an entry that stands alone. -/
theorem Sound.formatted_entry (sound : s.Sound) {entry : MetaEntry} (alone : entry.isAlone s = true) {value : Token}
    (held : s.get? entry.value = some value) (known : value.kind ∈ Layout.Page.entryKinds)
    (some : entry.keyText s ≠ "") (firm : Text.Firm (s.text entry.value)) (style : LayoutStyle) (expand : Bool) :
    ShowsLine style s.newlineText (s.formatted style expand) (entry.text s) := by
  obtain ⟨front, key, mark, value', back, whole, named, marked, written, ends⟩ := entry.split_of_alone alone
  have stored {h : Handle} {a : Token} (member : (h, a) ∈ s.entries) : s.get? h = Option.some a :=
    sound.get?_self (List.mem_map_of_mem member)
  obtain rfl : value' = value := Option.some.inj ((stored (by simp [whole])).symm.trans held)
  have first : s.textOf key = entry.keyText s := (text_eq s (stored (by simp [whole]))).symm
  have last : s.textOf value' = s.text entry.value := (text_eq s held).symm
  obtain ⟨included, listed⟩ : ∃ included, Layout.items s expand = Layout.itemsOf s included false s.entries := by
    cases expand with
    | false => exact ⟨[], rfl⟩
    | true =>
      obtain ⟨chain, nested⟩ := s
      exact ⟨Layout.includedItems nested, by rw [Layout.items, if_pos rfl, Layout.expandedItems]; rfl⟩
  obtain ⟨before, skip, parts⟩ := Layout.itemsOf_append (s := s) included front false
  rw [whole, parts, Layout.itemsOf_code (by simp [named]) (by simp [named]),
    Layout.itemsOf_code (by simp [marked, Layout.Page.entryKinds]) (by simp),
    Layout.itemsOf_code (List.mem_cons_of_mem _ known) (by simp), named, marked, written, first, last] at listed
  obtain ⟨line, member, same, bare⟩ := Layout.lines_entry some known (Layout.itemsOf_head included ends)
  rw [formatted, listed]
  exact Layout.render_line member same bare (firm.behind _)

end TokenStream

end YaraRules
