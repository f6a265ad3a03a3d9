import YaraRules.FileTree
import YaraRules.Lexer.Basic
import YaraRules.RuleFile

/-! The state of the parser and its elementary steps. The grammar reads the tokens
that are neither comments nor line breaks, one after the other, and checks what
they mean as it goes. The first problem ends the reading. -/

namespace YaraRules

/-- How often a file may be included. -/
inductive IncludeMode where
  | always
  /-- Includes of a file that was included before are passed over. -/
  | once
deriving DecidableEq, Inhabited, Repr

structure Settings where
  /-- Modules and attributes that rules may use. -/
  features : Features := Features.current
  mode : IncludeMode := .always
deriving DecidableEq, Inhabited

namespace Grammar

/-- A source that is being read. -/
structure Source where
  tokens : TokenStream
  /-- Tokens that are still to be read. -/
  rest : List Handle
  /-- Path of the source, if it is a file. -/
  path : Option String

structure State where
  settings : Settings
  tree : FileTree
  source : Source
  /-- The first identity that no stream has. -/
  nextId : ChainId
  /-- Files that are being read, the innermost first. -/
  opened : List FileTree.Place := []
  /-- Files that were included so far. -/
  included : List FileTree.Place := []
  pool : ModulePool
  imports : List Import := []
  rules : List Rule := []
  /-- Rules so far, by name, with the tokens of their names. -/
  ruleNames : List (String × Handle) := []
  /-- Strings of the rule that is being read. -/
  strings : NameTrie StringDefinition := {}
  /-- Variables of the loops around the present expression, the innermost first. -/
  scopes : List SymbolTable := []
  /-- Number of loops over strings around the present expression. -/
  stringLoops : Nat := 0

/-- The state with other tokens for the present source. -/
def State.onTokens (f : TokenStream → TokenStream) (s : State) : State :=
  { s with source := { s.source with tokens := f s.source.tokens } }

abbrev Parse := StateT State (Except ParseError)

def tokens : Parse TokenStream := return (← get).source.tokens

def modifyTokens (f : TokenStream → TokenStream) : Parse Unit := modify (·.onTokens f)

/-- Text of a token of the present source. -/
def textOf (h : Handle) : Parse String := return (← tokens).text h

def locationIn (tokens : TokenStream) (h : Handle) : Location :=
  match tokens.get? h with
  | some token => token.location
  | none => {}

def locationOf (h : Handle) : Parse Location := return locationIn (← tokens) h

/-- Ends the reading with a problem at a token. -/
def fail {α : Type} (h : Handle) (problem : Problem) : Parse α := do
  throw ⟨problem, ← locationOf h⟩

/-- The next token but `n`. -/
def peekHandle? (n : Nat) : Parse (Option Handle) := return (← get).source.rest[n]?

/-- Kind of the next token but `n`. -/
def peekAt? (n : Nat) : Parse (Option TokenKind) := do
  let source := (← get).source
  return (source.rest[n]?.bind source.tokens.get?).map (·.kind)

def peek? : Parse (Option TokenKind) := peekAt? 0

/-- How a token is named when it is not expected. -/
def describeIn (tokens : TokenStream) (h : Handle) : String :=
  match tokens.get? h with
  | some token =>
    if token.kind.fixedText?.isSome then "'" ++ tokens.text h ++ "'" else token.kind.describe
  | none => "token"

/-- Ends the reading because the next token is not what the grammar expects. -/
def unexpected {α : Type} (expected : String) : Parse α := do
  let source := (← get).source
  match source.rest with
  | h :: _ => fail h (.syntaxError (describeIn source.tokens h) expected)
  | [] =>
    throw ⟨.syntaxError "end of file" expected,
      (source.tokens.last?.map (locationIn source.tokens)).getD {}⟩

/-- Reads the next token, whatever it is. -/
def advance : Parse Handle := do
  match (← get).source.rest with
  | h :: rest =>
    modify fun s => { s with source := { s.source with rest } }
    return h
  | [] => unexpected "more input"

/-- Reads the next token, which has to be of the given kind. -/
def expect (kind : TokenKind) : Parse Handle := do
  if (← peek?) == some kind then advance else unexpected kind.describe

/-- Reads the next token if it is of the given kind. -/
def accept? (kind : TokenKind) : Parse (Option Handle) := do
  if (← peek?) == some kind then return some (← advance) else return none

/-- Number of tokens that are still to be read. -/
def remaining : Parse Nat := return (← get).source.rest.length

/-- Gives a token the kind that its role asks for. -/
def refine (h : Handle) (kind : TokenKind) : Parse Unit := modifyTokens (·.setKind h kind)

def setLiteral (h : Handle) (literal : Literal) : Parse Unit :=
  modifyTokens (·.setLiteral h literal)

/-- Makes the layout end the line after a token, if that is wanted. -/
def breakAfter (h : Handle) (wanted : Bool) : Parse Unit :=
  modifyTokens (·.modify h fun token => { token with breakAfter := token.breakAfter || wanted })

/-- Items as long as the next token is of a kind that starts one. No more than
`bound` tokens are left and each item takes one at least. -/
def itemsWhile {α : Type} (starts : TokenKind → Bool) (item : Parse α) : Nat → Parse (List α)
  | 0 => return []
  | bound + 1 => do
    if (← peek?).any starts then
      let first ← item
      return first :: (← itemsWhile starts item bound)
    else return []

/-- One item at least, with separators between them. No more than `bound` tokens are left. -/
def separated {α : Type} (separator : TokenKind) (item : Parse α) : Nat → Parse (List α)
  | 0 => return [← item]
  | bound + 1 => do
    let first ← item
    match ← accept? separator with
    | some _ => return first :: (← separated separator item bound)
    | none => return [first]

/-- Kinds of the tokens after one, up to the first that is no comment. -/
def isBreakNext (tokens : TokenStream) : Nat → Option Handle → Bool
  | 0, _ => false
  | _, none => false
  | bound + 1, some h =>
    match tokens.get? h with
    | some token =>
      if token.kind == .newLine then true
      else if token.kind.isComment then isBreakNext tokens bound (tokens.next? h)
      else false
    | none => false

/-- True if the line ends after a token, apart from comments. -/
def endsLine (tokens : TokenStream) (h : Handle) : Bool :=
  isBreakNext tokens tokens.size (tokens.next? h)

/-- True if there is a line break between two tokens. -/
def spansLines (tokens : TokenStream) (first last : Handle) : Bool :=
  match tokens.range first last with
  | .ok entries => entries.any (·.2.kind == .newLine)
  | .error _ => false

/-- Ends the reading at a string whose escape sequences cannot be read. -/
def checkEscapes (h : Handle) : Parse Unit := do
  match ((← tokens).get? h).bind (·.literal.asText?) with
  | some text =>
    match Text.unescape text with
    | .ok _ => return ()
    | .error _ => fail h (.invalidEscape (← textOf h))
  | none => return ()

/-- The regular expression in a token. -/
def readRegexp (h : Handle) : Parse Regexp := do
  match Regexp.read (← textOf h) with
  | .ok regexp => return regexp
  | .error fault => fail h (.invalidRegexp fault.message)

end Grammar

end YaraRules
