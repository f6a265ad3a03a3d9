import YaraRules.Lexer.Class
import YaraRules.Problem
import YaraRules.Text.Escape
import YaraRules.Token

/-! Source bytes as tokens. Nothing but blanks is dropped: comments and line breaks
are tokens too. Hex strings have words of their own, so the lexer has a mode for
them and one for the jumps inside them. An opening brace after an equal sign
enters the first, and what a mode does not know sends the lexer back to the
mode around it. -/

namespace YaraRules.Lexer

inductive Mode where
  | normal
  | hexPattern
  | hexJump
deriving DecidableEq, Inhabited, Repr

/-- What was found at the head of the source. -/
inductive Lexeme where
  | blank
  | token (kind : TokenKind)
deriving DecidableEq, Inhabited, Repr

/-- Kinds of normal mode that are always written the same way. -/
def fixedKinds : List TokenKind :=
  [.kwAll, .kwAnd, .kwAny, .kwAscii, .kwAt, .kwBase64, .kwBase64Wide, .kwCondition, .kwContains,
   .kwDefined, .kwEndsWith, .kwEntrypoint, .kwFilesize, .kwFor, .kwFullword, .kwGlobal,
   .kwIContains, .kwIEndsWith, .kwIEquals, .kwImport, .kwIn, .kwInclude, .kwIStartsWith,
   .kwMatches, .kwMeta, .kwNocase, .kwNone, .kwNot, .kwOf, .kwOr, .kwPrivate, .kwRule,
   .kwStartsWith, .kwStrings, .kwThem, .kwWide, .kwXor, .shiftLeft, .shiftRight, .eq, .ne, .le,
   .ge, .lt, .gt, .bitAnd, .multiply, .divide, .colon, .comma, .dot, .doubleDot, .assign, .plus,
   .minus, .modulo, .bitOr, .bitXor, .bitNot, .openBrace, .closeBrace, .openParen, .closeParen,
   .openBracket, .closeBracket]

/-- Texts of those kinds and of the two boolean literals. -/
def fixedTexts : List (Bytes × TokenKind) :=
  (Bytes.ofText "true", .boolean) :: (Bytes.ofText "false", .boolean) ::
    fixedKinds.map fun kind => (Bytes.ofText (kind.fixedText?.getD ""), kind)

/-- The longest candidate, the first of those that are equally long. -/
def longest : List (Lexeme × Option Nat) → Option (Lexeme × Nat)
  | [] => none
  | (_, none) :: rest => longest rest
  | (lexeme, some length) :: rest =>
    match longest rest with
    | some (other, more) => if length < more then some (other, more) else some (lexeme, length)
    | none => some (lexeme, length)

/-- Candidates in each mode. Words with a fixed text come before identifiers. -/
def candidates (mode : Mode) (bytes : Bytes) : List (Lexeme × Option Nat) :=
  match mode with
  | .normal =>
    fixedTexts.map (fun (text, kind) => (.token kind, fixed? text bytes)) ++
      [(.token .stringName, sigil? 0x24 bytes),
       (.token .stringWildcard, wildcard? bytes),
       (.token .stringCount, sigil? 0x23 bytes),
       (.token .stringOffset, sigil? 0x40 bytes),
       (.token .stringLength, sigil? 0x21 bytes),
       (.token .identifier, identifier? bytes),
       (.token .float, float? bytes),
       (.token .integer, integer? true bytes),
       (.token .string, string? bytes),
       (.token .regexp, regexp? bytes),
       (.token .blockComment, blockComment? false bytes),
       (.token .lineComment, lineComment? bytes),
       (.blank, blanks? bytes),
       (.token .newLine, newLine? bytes)]
  | .hexPattern =>
    [(.token .hexByte, hexByte? bytes),
     (.token .hexAltOr, fixed? [0x7C] bytes),
     (.token .hexAltOpen, fixed? [0x28] bytes),
     (.token .hexAltClose, fixed? [0x29] bytes),
     (.token .hexJumpOpen, fixed? [0x5B] bytes),
     (.token .hexEnd, fixed? [0x7D] bytes),
     (.blank, blanks? bytes),
     (.token .newLine, newLine? bytes),
     (.token .blockComment, blockComment? true bytes),
     (.token .lineComment, lineComment? bytes)]
  | .hexJump =>
    [(.token .dash, fixed? [0x2D] bytes),
     (.token .integer, integer? false bytes),
     (.token .hexJumpClose, fixed? [0x5D] bytes),
     (.blank, blanks? bytes),
     (.token .newLine, newLine? bytes)]

/-- What the bytes start with in a mode. -/
def lexeme? (mode : Mode) (bytes : Bytes) : Option (Lexeme × Nat) :=
  longest (candidates mode bytes)

/-- True if the whole text is one identifier and no reserved word. -/
def isIdentifier (name : String) : Bool :=
  let bytes := Bytes.ofText name
  lexeme? .normal bytes == some (.token .identifier, bytes.length)

/-- The mode to fall back to. -/
def Mode.outer : Mode → Mode
  | .hexJump => .hexPattern
  | .hexPattern => .normal
  | .normal => .normal

/-- What the bytes start with in the innermost mode, from the given one outwards,
that knows it. -/
def lexemeOutwards (mode : Mode) (bytes : Bytes) : Mode × Option (Lexeme × Nat) :=
  match lexeme? mode bytes with
  | some found => (mode, some found)
  | none =>
    match lexeme? mode.outer bytes with
    | some found => (mode.outer, some found)
    | none => (.normal, lexeme? .normal bytes)

/-- Value of digits in a base, most significant first. -/
def digitsValue (base : Nat) (digits : Bytes) : Nat :=
  digits.foldl (fun value b => value * base + ((Text.hexValue? b).getD 0).toNat) 0

/-- Value of an integer as it is written. -/
def integerValue : Bytes → Nat
  | 0x30 :: 0x78 :: digits => digitsValue 16 digits
  | 0x30 :: 0x6F :: digits => digitsValue 8 digits
  | bytes =>
    let digits := bytes.takeWhile isDigit
    match bytes.drop digits.length with
    | 0x4B :: _ => digitsValue 10 digits * 1024
    | 0x4D :: _ => digitsValue 10 digits * 1048576
    | _ => digitsValue 10 digits

/-- Literal of an integer, unless it takes more than 64 bits. The text is kept
unless it is the plain decimal one. -/
def integerLiteral? (bytes : Bytes) : Option Literal :=
  let value := integerValue bytes
  if value < UInt64.size then
    let literal :=
      if value < Literal.signedLimit then Literal.ofInt (Int64.ofNat value)
      else Literal.ofUInt (UInt64.ofNat value)
    let text := bytes.toText
    some (if text == toString value then literal else literal.withFormatted text)
  else none

/-- Bits of a float as it is written. -/
def floatBits (bytes : Bytes) : UInt64 :=
  let whole := bytes.takeWhile isDigit
  let fraction := bytes.drop (whole.length + 1)
  Decimal.bitsOfScaled (digitsValue 10 (whole ++ fraction)) (-(fraction.length : Int))

/-- State of the lexer: what is left, in which mode, and where it starts. -/
structure State where
  rest : Bytes
  mode : Mode := .normal
  position : Position := {}
  /-- Kind of the last token that was neither a comment nor a line break. -/
  last : Option TokenKind := none

/-- Location of a token that starts at `first`, and the position after it. A token
that spans lines is located at its start. -/
def locate (file : Option String) (first : Position) (bytes : Bytes) : Location × Position :=
  let after := first.after bytes
  let last : Position :=
    if after.line == first.line && first.column < after.column then
      ⟨first.line, after.column - 1⟩
    else first
  (⟨file, first, last⟩, after)

/-- The token with the given bytes. -/
def makeToken (kind : TokenKind) (bytes : Bytes) (location : Location) :
    Except ParseError Token :=
  match kind with
  | .string =>
    .ok { kind, location, literal := .ofWritten (Text.readable (bytes.drop 1).dropLast) }
  | .integer =>
    match integerLiteral? bytes with
    | some literal => .ok { kind, location, literal }
    | none => .error ⟨.integerOutOfRange bytes.toText, location⟩
  | .float =>
    .ok { kind, location,
          literal := (Literal.ofFloatBits (floatBits bytes)).withFormatted bytes.toText }
  | .boolean => .ok { kind, location, literal := .ofBool (bytes.head? == some 0x74) }
  | kind =>
    let indentation := if kind.isComment then some (location.first.column - 1) else none
    .ok { kind, location, indentation, literal := .ofWritten (Text.readable bytes) }

/-- Mode after a token. -/
def modeAfter (mode : Mode) : TokenKind → Mode
  | .hexStart | .hexJumpClose => .hexPattern
  | .hexJumpOpen => .hexJump
  | .hexEnd => .normal
  | _ => mode

def isSpace (b : UInt8) : Bool :=
  b == 0x20 || b == 0x09 || b == 0x0A || b == 0x0C || b == 0x0D

/-- Text that is no token goes up to the next white space, and takes one byte at least. -/
def unknownWidth (bytes : Bytes) : Nat := max 1 (run (fun b => !isSpace b) bytes)

/-- One step of the lexer. -/
inductive Step where
  /-- Blanks were passed over. -/
  | skipped (state : State)
  | found (token : Token) (state : State)
  | failed (error : ParseError)

def step (file : Option String) (s : State) : Step :=
  match lexemeOutwards s.mode s.rest with
  | (mode, some (.blank, length)) =>
    .skipped { s with
      rest := s.rest.drop length, mode, position := s.position.after (s.rest.take length) }
  | (mode, some (.token kind, length)) =>
    let bytes := s.rest.take length
    let kind := if kind == .openBrace && s.last == some .assign then .hexStart else kind
    let (location, after) := locate file s.position bytes
    match makeToken kind bytes location with
    | .ok token =>
      .found token
        ⟨s.rest.drop length, modeAfter mode kind, after,
          if kind.isTrivia then s.last else some kind⟩
    | .error e => .failed e
  | (_, none) =>
    let bytes := s.rest.take (unknownWidth s.rest)
    .failed ⟨.unknownToken (Text.readable bytes), (locate file s.position bytes).1⟩

/-- Tokens from a state on, in at most `fuel` steps. -/
def tokensFrom (file : Option String) : Nat → State → Except ParseError (List Token)
  | 0, _ => .ok []
  | fuel + 1, s =>
    if s.rest.isEmpty then .ok []
    else
      match step file s with
      | .skipped s => tokensFrom file fuel s
      | .found token s => do return token :: (← tokensFrom file fuel s)
      | .failed e => .error e

/-- All tokens of a source. Each step takes a byte at least, so there are no more
steps than bytes. -/
def tokens (file : Option String) (source : Bytes) : Except ParseError (List Token) :=
  tokensFrom file source.length { rest := source }

end YaraRules.Lexer
