import YaraRules.Layout.Lines
import YaraRules.RuleFile
import YaraRules.Text.Blank

/-! The canonical layout as text. -/

namespace YaraRules

structure LayoutStyle where
  /-- Text of one level of indentation. -/
  indent : String := "\t"
  /-- Comments at the end of consecutive lines start at the same column. -/
  alignComments : Bool := true
deriving DecidableEq, Inhabited

namespace Layout

def times (text : String) (n : Nat) : String := "".intercalate (List.replicate n text)

/-- Width of a text on the screen, with tabs of a fixed width. -/
def displayWidth (text : String) : Nat :=
  text.toList.foldl (fun width c => width + if c == '\t' then 4 else 1) 0

/-- A line with its indentation, and the comment at its end apart. -/
def indented (style : LayoutStyle) (line : Line) : String × Option String :=
  (if line.margin then line.code else times style.indent (line.level.getD 0) ++ line.code,
    line.comment)

/-- Appends the comments to lines that all have one, or leaves lines that have none. -/
def withComments (style : LayoutStyle) (run : List (String × Option String)) : List String :=
  let widest := (run.map fun (code, _) => displayWidth code).foldl max 0
  run.map fun (code, comment) =>
    match comment with
    | some comment =>
      let padding := if style.alignComments then widest + 1 - displayWidth code else 1
      code ++ times " " padding ++ comment
    | none => code

/-- Lines with their comments, which are aligned within runs of lines that have one. -/
def aligned (style : LayoutStyle) (lines : List (String × Option String)) : List String :=
  (lines.splitBy fun a b => a.2.isSome == b.2.isSome).flatMap (withComments style)

def render (style : LayoutStyle) (newline : String) (lines : List Line) : String :=
  "".intercalate
    ((aligned style (lines.map (indented style))).map fun line => Text.trimEnd line ++ newline)

end Layout

namespace TokenStream

/-- The stream in canonical layout, with its included files if `expand`. -/
def formatted (s : TokenStream) (style : LayoutStyle) (expand : Bool) : String :=
  Layout.render style s.newlineText (Layout.lines (Layout.items s expand))

end TokenStream

namespace RuleFile

/-- The file in canonical layout, comments included. -/
def formatted (file : RuleFile) (style : LayoutStyle) (expand : Bool) : String :=
  file.tokens.formatted style expand

end RuleFile

end YaraRules
