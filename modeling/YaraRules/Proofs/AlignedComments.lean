import Mathlib.Data.List.DropRight
import Mathlib.Data.List.SplitBy
import YaraRules.Layout.Render
import YaraRules.Proofs.LayoutLines
import YaraRules.Proofs.Outcomes

/-! Comments at the ends of lines. The layout puts at least one blank before each of them, and no
other part of the text depends on how many there are. In a run of lines that end in comments
these start behind the same width, one more than that of the widest code. The width of code
counts all of its characters. Where a comment inside spans lines that is more than the column at
which the code ends, so the comment behind does not start at the column of the others. -/

namespace YaraRules

open Text (Firm Visible)

/-! ### Ends of texts -/

namespace Text

variable {text : String}

private theorem trimEnd_append (visible : Visible text) (front : String) :
    trimEnd (front ++ text) = front ++ trimEnd text := by
  obtain ⟨c, member, black⟩ := visible
  have left : text.toList.reverse.dropWhile isBlank ≠ [] := fun none => by
    have all := List.dropWhile_eq_nil_iff.mp none c (List.mem_reverse.mpr member)
    rw [black] at all
    cases all
  rw [trimEnd, String.toList_append, List.reverse_append, List.dropWhile_append, if_neg (by simpa using left),
    List.reverse_append, List.reverse_reverse, String.ofList_append, String.ofList_toList, trimEnd]

end Text

namespace Layout

/-! ### Widths -/

def isLineBreak (c : Char) : Bool := c == '\n' || c == '\r'

/-- Width of the last line of a text. -/
def column (text : String) : Nat := displayWidth (String.ofList (text.toList.rtakeWhile (!isLineBreak ·)))

private theorem foldl_width (chars : List Char) (n : Nat) :
    chars.foldl (fun width c => width + if c == '\t' then 4 else 1) n = n +
    chars.foldl (fun width c => width + if c == '\t' then 4 else 1) 0 := by
  induction chars generalizing n with
  | nil => rfl
  | cons c chars ih => rw [List.foldl_cons, List.foldl_cons, ih, ih (0 + _), Nat.zero_add, Nat.add_assoc]

private theorem displayWidth_append (front back : String) :
    displayWidth (front ++ back) = displayWidth front + displayWidth back := by
  rw [displayWidth, String.toList_append, List.foldl_append, foldl_width]
  rfl

private theorem displayWidth_pos {text : String} (some : text ≠ "") : 0 < displayWidth text := by
  obtain ⟨c, rest, whole⟩ := List.exists_cons_of_ne_nil fun none => some (String.toList_eq_nil_iff.mp none)
  rw [displayWidth, whole, List.foldl_cons, foldl_width]
  split_ifs <;> omega

private theorem column_eq_iff {text : String} :
    column text = displayWidth text ↔ ∀ c ∈ text.toList, isLineBreak c = false := by
  have parts : String.ofList (text.toList.rdropWhile (!isLineBreak ·)) ++
      String.ofList (text.toList.rtakeWhile (!isLineBreak ·)) = text := by
    rw [← String.ofList_append, List.rdropWhile_append_rtakeWhile, String.ofList_toList]
  have whole := congrArg displayWidth parts
  rw [displayWidth_append] at whole
  have none : (∀ c ∈ text.toList, isLineBreak c = false) ↔
      String.ofList (text.toList.rdropWhile (!isLineBreak ·)) = "" := by
    rw [← String.toList_eq_nil_iff, String.toList_ofList, List.rdropWhile_eq_nil_iff]
    simp
  rw [none, ← whole, column]
  refine ⟨fun same => ?_, fun same => ?_⟩
  · by_contra some
    have wide := displayWidth_pos some
    omega
  · rw [same]
    exact (Nat.zero_add _).symm

/-! ### Rows -/

/-- A line with its indentation, the comment at its end and the number of blanks that align it. -/
structure Row where
  code : String
  comment : Option String
  gap : Nat

namespace Row

def pair (row : Row) : String × Option String := (row.code, row.comment)

/-- What is written, with some blanks before the comment. -/
def line (row : Row) (gap : Nat) : String :=
  match row.comment with
  | none => row.code
  | some comment => row.code ++ times " " gap ++ comment

/-- What is written but for blanks at the end of the line. -/
def text (row : Row) (gap : Nat) : String :=
  match row.comment with
  | none => Text.trimEnd row.code
  | some comment => row.code ++ times " " gap ++ Text.trimEnd comment

/-- The comment shows, and the code before it does not end in a blank. -/
def Trailed (row : Row) : Prop := ∀ comment ∈ row.comment, Firm row.code ∧ Visible comment

/-- The code is a single line. -/
def OneLine (row : Row) : Prop := ∀ c ∈ row.code.toList, isLineBreak c = false

theorem Trailed.text {row : Row} (trailed : row.Trailed) (gap : Nat) : Text.trimEnd (row.line gap) = row.text gap := by
  unfold line Row.text
  cases same : row.comment with
  | none => rfl
  | some comment => exact Text.trimEnd_append (trailed comment same).2 _

end Row

/-- The comments of a run have the width of the widest code and a blank before them. This is the column where they start
if the code before is a single line. -/
structure Aligned (run : List Row) (width : Nat) : Prop where
  widest : ∃ row ∈ run, displayWidth row.code = width
  within : ∀ row ∈ run, displayWidth row.code ≤ width
  spread : ∀ row ∈ run, displayWidth row.code + row.gap = width + 1
  starts : ∀ row ∈ run, column row.code + row.gap = width + 1 ↔ row.OneLine

/-! ### Runs -/

/-- Width of the widest code. -/
def widest (run : List (String × Option String)) : Nat := (run.map fun (code, _) => displayWidth code).foldl max 0

private theorem max_widest {run : List (String × Option String)} (some : run ≠ []) :
    (run.map fun pair => displayWidth pair.1).max? = Option.some (widest run) := by
  obtain ⟨pair, rest, rfl⟩ := List.exists_cons_of_ne_nil some
  rw [List.map_cons, List.max?_cons', widest, List.map_cons, List.foldl_cons, Nat.max_eq_right (Nat.zero_le _)]

private theorem le_widest {run : List (String × Option String)} {pair : String × Option String} (member : pair ∈ run) :
    displayWidth pair.1 ≤ widest run :=
  (List.max?_eq_some_iff.mp (max_widest (List.ne_nil_of_mem member))).2 _ (List.mem_map_of_mem member)

/-- Both lines end in comments, or neither does. -/
def together (a b : String × Option String) : Bool := a.2.isSome == b.2.isSome

/-- The rows of a run, with blanks that align their comments. -/
def alignRun (run : List (String × Option String)) : List Row :=
  run.map fun (code, comment) => ⟨code, comment, widest run + 1 - displayWidth code⟩

def align (pairs : List (String × Option String)) : List Row := (pairs.splitBy together).flatMap alignRun

variable {run pairs front back : List (String × Option String)}

private theorem pairs_alignRun (run : List (String × Option String)) : (alignRun run).map Row.pair = run := by
  rw [alignRun, List.map_map]
  exact List.map_id _

private theorem pairs_align (pairs : List (String × Option String)) : (align pairs).map Row.pair = pairs := by
  rw [align, List.map_flatMap]
  simp only [pairs_alignRun]
  rw [List.flatMap_id', List.flatten_splitBy]

private theorem aligned_eq (style : LayoutStyle) (pairs : List (String × Option String)) :
    aligned style pairs = (align pairs).map fun row => row.line (if style.alignComments then row.gap else 1) := by
  have same (run : List (String × Option String)) :
      withComments style run = (alignRun run).map fun row => row.line (if style.alignComments then row.gap else 1) := by
    rw [withComments, alignRun, List.map_map]
    refine List.map_congr_left fun pair _ => ?_
    obtain ⟨code, comment⟩ := pair
    cases comment <;> rfl
  rw [aligned, align, List.map_flatMap]
  exact List.flatMap_congr fun run _ => same run

private theorem gap_alignRun {row : Row} (member : row ∈ alignRun run) : displayWidth row.code ≤ widest run ∧
    displayWidth row.code + row.gap = widest run + 1 := by
  obtain ⟨pair, inside, rfl⟩ := List.mem_map.mp member
  have least := le_widest inside
  refine ⟨least, ?_⟩
  show displayWidth pair.1 + (widest run + 1 - displayWidth pair.1) = _
  omega

private theorem gap_align {row : Row} (member : row ∈ align pairs) : 1 ≤ row.gap := by
  obtain ⟨run, _, inside⟩ := List.mem_flatMap.mp member
  have gap := gap_alignRun inside
  omega

private theorem align_run (some : run ≠ []) (comments : ∀ pair ∈ run, pair.2.isSome)
    (before : ∀ pair ∈ front.getLast?, pair.2 = none) (behind : ∀ pair ∈ back.head?, pair.2 = none) : align
    (front ++ (run ++ back)) = align front ++ (alignRun run ++ align back) := by
  have apart {a b : String × Option String} (one : a.2 = none) (other : b.2.isSome) :
      together a b = false ∧ together b a = false := by
    simp [together, one, other]
  have alike : run.IsChain fun a b => together a b = true := by
    refine (List.pairwise_of_forall_mem_list fun a here b there => ?_).isChain
    rw [together, comments a here, comments b there]
    rfl
  have first : ∀ a ∈ front.getLast?, ∀ b ∈ (run ++ back).head?, together a b = false := by
    intro a last b head
    rw [List.head?_append_of_ne_nil _ some] at head
    exact (apart (before a last) (comments b (List.mem_of_mem_head? head))).1
  have second : ∀ a ∈ run.getLast?, ∀ b ∈ back.head?, together a b = false := by
    intro a last b head
    exact (apart (behind b head) (comments a (List.mem_of_getLast? last))).2
  rw [align, List.splitBy_append first, List.splitBy_append second, List.splitBy_of_isChain some alike]
  simp [align]

/-- A maximal run of rows that end in comments is aligned. -/
theorem run_aligned {before after : List Row} {run : List Row} (parts : align pairs = before ++ (run ++ after))
    (some : run ≠ []) (comments : ∀ row ∈ run, row.comment.isSome) (first : ∀ row ∈ before.getLast?, row.comment = none)
    (last : ∀ row ∈ after.head?, row.comment = none) : ∃ width, Aligned run width := by
  have split : pairs = before.map Row.pair ++ (run.map Row.pair ++ after.map Row.pair) := by
    rw [← pairs_align pairs, parts, List.map_append, List.map_append]
  have filled : run.map Row.pair ≠ [] := by simpa using some
  have whole : align (before.map Row.pair ++ (run.map Row.pair ++ after.map Row.pair)) =
      align (before.map Row.pair) ++ (alignRun (run.map Row.pair) ++ align (after.map Row.pair)) :=
    align_run filled (by simpa [Row.pair] using comments) (by simpa [Row.pair] using first)
      (by simpa [Row.pair] using last)
  rw [← split, parts] at whole
  have size (pairs : List (String × Option String)) : (align pairs).length = pairs.length := by
    rw [← List.length_map (f := Row.pair), pairs_align]
  obtain ⟨_, inner⟩ := List.append_inj whole (by simp [size])
  obtain ⟨same, _⟩ := List.append_inj inner (by simp [alignRun])
  have gaps : ∀ row ∈ run, displayWidth row.code ≤ widest (run.map Row.pair) ∧
      displayWidth row.code + row.gap = widest (run.map Row.pair) + 1 := by
    intro row member
    exact gap_alignRun (same ▸ member)
  obtain ⟨attained, _⟩ := List.max?_eq_some_iff.mp (max_widest filled)
  obtain ⟨pair, inside, width⟩ := List.mem_map.mp attained
  obtain ⟨row, member, rfl⟩ := List.mem_map.mp inside
  refine ⟨_, ⟨row, member, width⟩, fun row member => (gaps row member).1, fun row member =>
    (gaps row member).2, fun row member => ?_⟩
  rw [Row.OneLine, ← column_eq_iff, ← (gaps row member).2, Nat.add_right_cancel_iff]

/-! ### Lines -/

/-- The comment at the end shows, and the code before it does not end in a blank. -/
def Line.Trailed (line : Line) : Prop := ∀ comment ∈ line.comment, Firm line.code ∧ Visible comment

theorem Spelled.firm {texts : List String} {code : String} (spelled : Spelled texts code)
    (last : ∀ text ∈ texts.getLast?, Firm text) (some : texts ≠ []) : Firm code := by
  cases spelled with
  | none => exact absurd rfl some
  | first => exact last _ rfl
  | next _ _ text => exact ((last text (by simp)).behind _).behind _

private theorem Line.Carries.trailed {line : Line} {items : List Item} (carries : line.Carries items)
    (fits : ∀ item ∈ items, item.isShown ∧ item.Fits) : line.Trailed := by
  intro comment member
  obtain ⟨words, spelled, ⟨bare, _⟩ | ⟨some, margin, text, same, rfl⟩⟩ := carries.spelled
  · rw [bare] at member
    cases member
  · obtain rfl := Option.some.inj (same.symm.trans member)
    refine ⟨spelled.firm (fun last tail => ?_) (by simpa using some), (fits (.comment true margin text) (by simp)).2⟩
    rw [List.getLast?_map, Option.mem_def, Option.map_eq_some_iff] at tail
    obtain ⟨item, final, rfl⟩ := tail
    have inside := List.mem_of_getLast? final
    obtain ⟨shown, fit⟩ := fits item (List.mem_append_left _ inside)
    exact fit.firm shown (carries.ends item (by simpa using inside))

private theorem lines_trailed {items : List Item} (fits : ∀ item ∈ items, item.Fits) :
    ∀ line ∈ lines items, line.Trailed := by
  obtain ⟨rows, placed, whole, -⟩ := lines_canonical fits
  have rowFits : ∀ row ∈ rows, ∀ item ∈ row, item.isShown ∧ item.Fits := by
    intro row listed item inside
    have member : item ∈ items.filter Item.isShown := whole ▸ List.mem_flatten_of_mem listed inside
    obtain ⟨held, shown⟩ := List.mem_filter.mp member
    exact ⟨shown, fits item held⟩
  generalize lines items = laid at placed
  clear whole
  induction placed with
  | nil => exact fun line member => absurd member List.not_mem_nil
  | cons carries _ ih =>
    obtain ⟨here, later⟩ := List.forall_mem_cons.mp rowFits
    exact List.forall_mem_cons.mpr ⟨carries.trailed here, ih later⟩

private theorem align_trailed {lines : List Line} (trailed : ∀ line ∈ lines, line.Trailed) (style : LayoutStyle) :
    ∀ row ∈ align (lines.map (indented style)), row.Trailed := by
  intro row member
  have listed := List.mem_map_of_mem (f := Row.pair) member
  rw [pairs_align] at listed
  obtain ⟨line, inside, same⟩ := List.mem_map.mp listed
  obtain ⟨code, comment⟩ := Prod.mk.inj (show _ = (row.code, row.comment) from same)
  intro text shown
  obtain ⟨firm, visible⟩ := trailed line inside text (comment.symm ▸ shown)
  refine ⟨?_, visible⟩
  rw [← code]
  split_ifs
  · exact firm
  · exact firm.behind _

/-- The layout of rows whose comments show differs only in the blanks before these. -/
theorem render_rows {style : LayoutStyle} {newline : String} {lines : List Line}
    (trailed : ∀ line ∈ lines, line.Trailed) :
    render style newline lines = "".intercalate ((align (lines.map (indented style))).map fun row =>
      row.text (if style.alignComments then row.gap else 1) ++ newline) := by
  rw [render, aligned_eq, List.map_map]
  refine congrArg _ (List.map_congr_left fun row member => ?_)
  rw [Function.comp_apply, (align_trailed trailed style row member).text]

end Layout

namespace RuleFile

open Layout (Row Aligned displayWidth column)

/-- With the comments aligned and without, the layout of a file has the same rows but for the blanks before
the comments. In a run of rows with comments these are aligned. -/
theorem Read.comments_aligned {file : RuleFile} (read : file.Read) (indent : String) (expand : Bool) :
    ∃ rows : List Row,
    rows.map Row.pair = (Layout.lines (Layout.items file.tokens expand)).map (Layout.indented ⟨indent, true⟩) ∧
    (∀ row ∈ rows, 1 ≤ row.gap ∧ ∀ comment ∈ row.comment, Firm row.code ∧ Visible comment) ∧
    file.formatted ⟨indent, true⟩ expand = "".intercalate
    (rows.map fun row => row.text row.gap ++ file.tokens.newlineText) ∧
    file.formatted ⟨indent, false⟩ expand = "".intercalate (rows.map fun row => row.text 1 ++ file.tokens.newlineText) ∧
    ∀ before run after, rows = before ++ (run ++ after) → run ≠ [] → (∀ row ∈ run, row.comment.isSome) →
      (∀ row ∈ before.getLast?, row.comment = none) → (∀ row ∈ after.head?, row.comment = none) →
      ∃ width, Aligned run width := by
  have trailed := Layout.lines_trailed (read.items_fit expand)
  exact ⟨Layout.align ((Layout.lines (Layout.items file.tokens expand)).map (Layout.indented ⟨indent, true⟩)),
    Layout.pairs_align _, fun row member => ⟨Layout.gap_align member, Layout.align_trailed trailed _ row member⟩,
    Layout.render_rows trailed, Layout.render_rows trailed, fun before run after parts => Layout.run_aligned parts⟩

/-- A condition with a comment on two lines inside, and comments at the ends of consecutive lines. -/
def remarkedContent : Bytes := Bytes.ofText "rule a\x7bcondition:true/*x\ny*/ // one\nand true // two\n\x7d"

private theorem remarked_lines : yields (RuleFile.ofSource {} {} 0 remarkedContent) (fun file =>
    (Layout.lines (Layout.items file.tokens false)).map (Layout.indented ⟨"\t", true⟩) ==
      [("rule a", none), ("\x7b", none), ("\tcondition:", none), ("\t\ttrue /*x\ny*/", some "// one"),
        ("\t\tand true", some "// two"), ("\x7d", none)]) = true := by
  decide +kernel

/-- The comments of a run start at different columns where there is a line break in the code. -/
theorem comments_aligned_break : ∃ file, RuleFile.ofSource {}
    {} 0 remarkedContent = .ok file ∧ ∃ rows : List Row,
    file.formatted ⟨"\t", true⟩ false = "".intercalate
    (rows.map fun row => row.text row.gap ++ file.tokens.newlineText) ∧ ⟨"\t\ttrue /*x\ny*/", some "// one", 1⟩ ∈ rows ∧
    ⟨"\t\tand true", some "// two", 5⟩ ∈ rows ∧ column "\t\ttrue /*x\ny*/" + 1 = 4 ∧
    column "\t\tand true" + 5 = 21 := by
  obtain ⟨file, done, run⟩ := yields_iff.mp remarked_lines
  obtain ⟨rows, pairs, _, shown, _, aligned⟩ := Read.comments_aligned (.ofSource done) "\t" false
  rw [eq_of_beq run] at pairs
  simp only [List.map_eq_cons_iff, List.map_eq_nil_iff] at pairs
  obtain ⟨header, _, rfl, _, opening, _, rfl, _, key, _, rfl, before, ⟨code, comment, gap⟩, _, rfl, first,
    ⟨code', comment', gap'⟩, _, rfl, second, closing, _, rfl, after, rfl⟩ := pairs
  cases first
  cases second
  have bare : key.comment = none ∧ closing.comment = none := ⟨congrArg Prod.snd before, congrArg Prod.snd after⟩
  obtain ⟨width, widest, within, spread, _⟩ := aligned [header, opening, key] [_, _] [closing] rfl (by simp) (by simp)
    (by simpa using bare.1) (by simpa using bare.2)
  have widths : displayWidth "\t\ttrue /*x\ny*/" = 20 ∧ displayWidth "\t\tand true" = 16 := by decide
  simp only [List.mem_cons, List.not_mem_nil, or_false, exists_eq_or_imp, exists_eq_left, forall_eq_or_imp,
    forall_eq, widths]
    at widest within spread
  obtain rfl : gap = 1 := by omega
  obtain rfl : gap' = 5 := by omega
  exact ⟨file, done, _, shown, by simp, by simp, by decide, by decide⟩

end RuleFile

end YaraRules
