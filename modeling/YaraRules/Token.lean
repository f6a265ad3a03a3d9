import YaraRules.Literal
import YaraRules.Location
import YaraRules.Token.Kind

/-! Tokens: the pieces that source text is made of, comments and line breaks included. -/

namespace YaraRules

structure Token where
  kind : TokenKind
  literal : Literal
  location : Location := {}
  /-- The layout ends the line after the token. -/
  breakAfter : Bool := false
  /-- Column at which a comment started in its source. -/
  indentation : Option Nat := none
deriving Inhabited

namespace Token

/-- A token of a kind that is always written the same way, which comes from no source. -/
def fixed (kind : TokenKind) : Token :=
  { kind, literal := .ofWritten (kind.fixedText?.getD "") }

end Token

end YaraRules
