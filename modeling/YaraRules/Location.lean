import YaraRules.Text.Utf8

/-! Places in source text. Lines and columns start at 1, and columns count
characters rather than bytes. -/

namespace YaraRules

structure Position where
  line : Nat := 1
  column : Nat := 1
deriving DecidableEq, Inhabited, Repr

namespace Position

/-- The position one byte further. A carriage return takes no room of its own, and
neither do the bytes that continue a character. -/
def step (p : Position) (b : UInt8) : Position :=
  if b == 0x0A then ⟨p.line + 1, 1⟩
  else if b == 0x0D then p
  else if Utf8.isTail b then p
  else ⟨p.line, p.column + 1⟩

/-- The position of the character that follows `text` when `text` starts at `p`.
A text that ends in a carriage return ends its line. -/
def after (p : Position) (text : Bytes) : Position :=
  let reached := text.foldl step p
  if text.getLast? == some 0x0D then ⟨reached.line + 1, 1⟩ else reached

/-- Order of reading. -/
def compare (p q : Position) : Ordering :=
  (Ord.compare p.line q.line).then (Ord.compare p.column q.column)

end Position

/-- Where a token was found, both ends included. Tokens that come from no source
have no file and stand at the first position. -/
structure Location where
  file : Option String := none
  first : Position := {}
  last : Position := {}
deriving DecidableEq, Inhabited, Repr

namespace Location

/-- Name of the file, `unnamed` for sources that were not read from one. -/
def fileName (l : Location) : String := l.file.getD "unnamed"

def line (l : Location) : Nat := l.first.line

/-- From the start of `l` to the end of `m`. -/
def combine (l m : Location) : Location := { l with last := m.last }

/-- The file if there is one, the start, and the last column if it is further on the same line. -/
def text (l : Location) : String :=
  let file := match l.file with
    | some name => name ++ ":"
    | none => ""
  let last :=
    if l.first.line == l.last.line && l.first.column < l.last.column then
      "-" ++ toString l.last.column
    else ""
  file ++ toString l.first.line ++ "." ++ toString l.first.column ++ last

end Location

end YaraRules
