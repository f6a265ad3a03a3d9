import YaraRules.Edit.Error
import YaraRules.Lexer.Basic
import YaraRules.TokenStream.Basic

/-! Drafts describe what is to be built without a source. They are written as tokens,
in the order of reading, into a stream of their own. -/

namespace YaraRules

/-- Why a draft cannot be built. -/
inductive DraftError where
  | missingName
  | invalidStringIdentifier (id : String)
  | duplicateString (id : String)
  | invalidIdentifier (name : String)
  | invalidRegexp (text reason : String)
  | invalidHexJump (low high : UInt64)
  | emptyHexString
  | invalidHexAlternation
  | invalidXorRange (low high : UInt8)
  | invalidBase64Alphabet
  | modifierWithoutString
  | invalidOperand (operation expression : String)
  /-- The text of the built file is not accepted. -/
  | rejected (error : ParseError) (text : String)
  | edit (error : EditError)
deriving DecidableEq

/-- Name of the kind of error. -/
def DraftError.label : DraftError → String
  | missingName => "MissingName"
  | invalidStringIdentifier _ => "InvalidStringIdentifier"
  | duplicateString _ => "DuplicateString"
  | invalidIdentifier _ => "InvalidIdentifier"
  | invalidRegexp .. => "InvalidRegexp"
  | invalidHexJump .. => "InvalidHexJump"
  | emptyHexString => "EmptyHexString"
  | invalidHexAlternation => "InvalidHexAlternation"
  | invalidXorRange .. => "InvalidXorRange"
  | invalidBase64Alphabet => "InvalidBase64Alphabet"
  | modifierWithoutString => "ModifierWithoutString"
  | invalidOperand .. => "InvalidOperand"
  | rejected .. => "Recheck"
  | edit error => error.label

def DraftError.message : DraftError → String
  | missingName => "the rule has no name"
  | invalidStringIdentifier id => "'" ++ id ++ "' is not a valid string identifier"
  | duplicateString id => "string '" ++ id ++ "' already exists"
  | invalidIdentifier name => "'" ++ name ++ "' is not a valid identifier"
  | invalidRegexp text reason => "invalid regular expression '" ++ text ++ "': " ++ reason
  | invalidHexJump low high =>
    "invalid hex string jump [" ++ toString low.toNat ++ "-" ++ toString high.toNat ++ "]"
  | emptyHexString => "hex string is empty"
  | invalidHexAlternation => "hex alternation needs at least two non-empty alternatives"
  | invalidXorRange low high =>
    "invalid XOR range (" ++ toString low.toNat ++ "-" ++ toString high.toNat ++ ")"
  | invalidBase64Alphabet => "base64 alphabet must be 64 characters long"
  | modifierWithoutString => "a modifier was added before any string"
  | invalidOperand operation expression =>
    "`" ++ operation ++ "` can't be applied to '" ++ expression ++ "'"
  | rejected error text => "generated code is invalid: " ++ error.message ++ "\n" ++ text
  | edit error => error.message

/-- True for names of strings like `$`, `$a` and `$foo_1`. -/
def isStringIdentifier (id : String) : Bool :=
  match id.toList with
  | '$' :: rest => rest.all fun c => c.isAlphanum || c == '_'
  | _ => false

/-- A number in hexadecimal, like `0x1F`. -/
def hexadecimal (n : Nat) : String :=
  "0x" ++ String.ofList ((Nat.toDigits 16 n).map Char.toUpper)

/-- Appends tokens to a stream until something is wrong. -/
abbrev Emit := StateT TokenStream (Except DraftError)

namespace Emit

def put (token : Token) : Emit Handle := modifyGet fun stream => stream.push token

/-- Writes a token that always has the same text. -/
def fixed (kind : TokenKind) : Emit Handle := put (.fixed kind)

def literal (kind : TokenKind) (literal : Literal) : Emit Handle := put { kind, literal }

/-- Writes a token with the given text. -/
def written (kind : TokenKind) (text : String) : Emit Handle := literal kind (.ofWritten text)

/-- Writes a token after which the line ends. -/
def blockOpening (kind : TokenKind) : Emit Handle :=
  put { Token.fixed kind with breakAfter := true }

/-- Writes a line break. -/
def newline : Emit Unit := do let _ ← fixed .newLine

end Emit

end YaraRules
