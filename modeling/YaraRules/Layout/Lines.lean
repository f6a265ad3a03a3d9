import YaraRules.Layout.Item

/-! Lines of the canonical layout. Rules are set off by blank lines, sections are
indented by one level and their content by two, and every meta entry and string
has its own line. Line breaks inside conditions are kept, and a bracket whose
content starts on a new line is laid out as a block. -/

namespace YaraRules.Layout

structure Line where
  /-- Level of indentation; comments on lines of their own take that of the code below. -/
  level : Option Nat := none
  /-- The line starts with a comment that stood at the first column and stays there. -/
  margin : Bool := false
  code : String := ""
  /-- Comment at the end of the line. -/
  comment : Option String := none
  /-- There are only comments on the line. -/
  commentOnly : Bool := false
deriving DecidableEq, Inhabited

namespace Line

def isEmpty (l : Line) : Bool := l.code == "" && l.comment.isNone

def blank : Line := { level := some 0 }

end Line

/-- The state of the layout between two items. -/
structure Page where
  /-- Finished lines, the last one first. -/
  above : List Line := []
  current : Line := {}
  /-- Kind of the last token that was placed, comments not counted. -/
  last : Option TokenKind := none
  /-- Line breaks of the source since the last token. -/
  breaks : Nat := 0
  /-- Open brackets, the innermost first, and whether each is laid out as a block. -/
  brackets : List Bool := []
  inRule : Bool := false
  /-- The line ends before the next token unless that is a comment. -/
  breakPending : Bool := false
deriving Inhabited

namespace Page

/-- Ends the current line if there is anything on it. -/
def breakLine (p : Page) : Page :=
  let p := { p with breakPending := false }
  if p.current.isEmpty then p else { p with above := p.current :: p.above, current := {} }

/-- Ends the current line and leaves a blank one, but never two. -/
def blankLine (p : Page) : Page :=
  let p := p.breakLine
  if p.above.head?.any (!·.isEmpty) then { p with above := .blank :: p.above } else p

/-- Leaves one blank line where the source had any. -/
def separate (p : Page) : Page :=
  { (if 2 ≤ p.breaks then p.blankLine else p) with breaks := 0 }

def placeBreak (p : Page) : Page := { p with breaks := p.breaks + 1 }.breakLine

/-- A comment starts a line of its own, or goes to the end of the current one. -/
def placeComment (p : Page) (oneLine margin : Bool) (text : String) : Page :=
  let p := p.separate
  let p :=
    if p.current.isEmpty then
      { p with current := { margin, code := text, commentOnly := true } }
    else if oneLine then { p with current := { p.current with comment := some text } }
    else { p with current := { p.current with code := p.current.code ++ " " ++ text } }
  if oneLine then p.breakLine else p

/-- Kinds that start a line. -/
def startsLine : TokenKind → Bool
  | .kwImport | .kwInclude | .kwMeta | .kwStrings | .kwCondition | .metaKey | .stringDefinition
  | .ruleBegin | .ruleEnd => true
  | _ => false

/-- True if a token of this kind is the first of a rule. -/
def startsRule (p : Page) (kind : TokenKind) : Bool :=
  (kind == .kwRule || kind == .kwPrivate || kind == .kwGlobal) &&
    !(p.last == some .kwPrivate || p.last == some .kwGlobal)

/-- Leaves a blank line above the comments that the page ends with. -/
def setOff (above : List Line) : List Line :=
  let comments := above.takeWhile (·.commentOnly)
  match above.dropWhile (·.commentOnly) with
  | [] => comments
  | line :: rest =>
    if line.isEmpty then above else comments ++ .blank :: line :: rest

/-- Sets a rule off from what is above. Comments right above the rule stay with it. -/
def separateRule (p : Page) : Page :=
  let p := p.breakLine
  { p with above := setOff p.above }

/-- Level of indentation of a line that starts with a token of this kind. -/
def levelOf (p : Page) (kind : TokenKind) : Nat :=
  if p.inRule then
    match kind with
    | .kwMeta | .kwStrings | .kwCondition => 1
    | .ruleEnd => 0
    | _ => 2 + p.brackets.count true
  else 0

def isSectionKeyword : TokenKind → Bool
  | .kwMeta | .kwStrings | .kwCondition => true
  | _ => false

/-- True if there is a blank between two tokens on a line. -/
def spaced (left right : TokenKind) : Bool :=
  match left with
  | .openParen | .openBracket | .hexJumpOpen | .dot | .doubleDot | .unaryMinus | .bitNot | .dash =>
    false
  | _ =>
    match right with
    | .closeParen | .closeBracket | .hexJumpClose | .comma | .dot | .doubleDot | .percent | .dash =>
      false
    | .colon => !isSectionKeyword left
    | .openParen | .openBracket =>
      match left with
      | .symbolName | .identifier | .integerFunction | .kwXor | .kwBase64 | .kwBase64Wide
      | .stringOffset | .stringLength => false
      | _ => true
    | _ => true

/-- Ends the lines that have to end before a token, and closes its bracket. -/
def makeRoom (p : Page) (kind : TokenKind) : Page :=
  let p := if p.breakPending then p.breakLine else p
  -- The opening brace follows the header of its rule without a blank line.
  let p := if kind == .ruleBegin then { p with breaks := 0 } else p
  let p := p.separate
  let p :=
    if kind.isClosing then
      let block := p.brackets.head?.any id
      let p := { p with brackets := p.brackets.tail }
      if block then p.breakLine else p
    else p
  let p := if p.startsRule kind then p.separateRule else p
  if startsLine kind then p.breakLine else p

/-- Writes a token on the current line. -/
def write (p : Page) (kind : TokenKind) (text : String) : Page :=
  let line := p.current
  let line :=
    if line.isEmpty then { line with level := some (p.levelOf kind) }
    else
      let line :=
        if line.commentOnly then { line with commentOnly := false, level := some (p.levelOf kind) }
        else line
      if p.last.all (spaced · kind) then { line with code := line.code ++ " " } else line
  { p with current := { line with code := line.code ++ text } }

/-- Takes note of a token that was written. -/
def follow (p : Page) (kind : TokenKind) (block : Bool) : Page :=
  let sectionColon := kind == .colon && p.last.any isSectionKeyword
  let brackets := if kind.isOpening then block :: p.brackets else p.brackets
  let blockOperator := (kind == .kwAnd || kind == .kwOr) && brackets.head?.any id
  { p with
    last := some kind
    inRule := if kind == .ruleBegin then true else if kind == .ruleEnd then false else p.inRule
    brackets
    breakPending := p.breakPending || sectionColon || blockOperator ||
      (kind.isOpening && block) || kind == .ruleBegin || kind == .ruleEnd }

def placeCode (p : Page) (kind : TokenKind) (text : String) (block : Bool) : Page :=
  ((p.makeRoom kind).write kind text).follow kind block

def place (p : Page) : Item → Page
  | .lineBreak => p.placeBreak
  | .comment oneLine margin text => p.placeComment oneLine margin text
  | .code kind text block => p.placeCode kind text block
  | .fileEdge => p.breakLine

end Page

/-- Gives lines without a level that of the code line below. The lines and the result have the last
line first; `level` is that of the code below. -/
def settleLevels (level : Nat) : List Line → List Line
  | [] => []
  | line :: rest =>
    match line.level with
    | some own => line :: settleLevels (if line.isEmpty then level else own) rest
    | none => { line with level := some level } :: settleLevels level rest

/-- Lines for a list of items, in order. -/
def lines (items : List Item) : List Line :=
  (settleLevels 0 (items.foldl Page.place {}).breakLine.above).reverse

end YaraRules.Layout
