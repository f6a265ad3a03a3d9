import YaraRules.Text.Quoted
import YaraRules.TokenStream.Basic

/-! Aliases between tokens and the text that tokens have. A token whose literal is
an alias is written with the literal of its target, so a change of the target
shows wherever it is referred to. -/

namespace YaraRules.TokenStream

/-- Follows aliases from a literal, through at most `steps` literals. -/
def resolveFrom (s : TokenStream) : Nat → Literal → Option Literal
  | 0, _ => none
  | steps + 1, literal =>
    match literal.aliasTarget? with
    | some target =>
      match s.get? target with
      | some token => s.resolveFrom steps token.literal
      | none => none
    | none => some literal

/-- Literal of a token after following aliases. A target is no alias itself, so one
step is enough; the bound of eight stops at streams that were tampered with. -/
def resolve? (s : TokenStream) (h : Handle) : Option Literal := do
  s.resolveFrom 8 (← s.get? h).literal

/-- The text with its first character replaced by a sigil. -/
def withSigil (sigil : Char) (text : String) : String :=
  String.ofList (sigil :: text.toList.drop 1)

/-- The text of a literal in a token of a kind: strings stand in quotes, and what is
said of a string goes by its name with another sigil. -/
def writtenAs (kind : TokenKind) (text : String) : String :=
  match kind with
  | .string => "\"" ++ text ++ "\""
  | .stringCount => withSigil '#' text
  | .stringOffset => withSigil '@' text
  | .stringLength => withSigil '!' text
  | _ => text

/-- Text of a token that this stream holds, at any depth. -/
def textOf (s : TokenStream) (token : Token) : String :=
  writtenAs token.kind
    (match token.literal.aliasTarget? with
    | some target => ((s.resolve? target).map Literal.text).getD ""
    | none => token.literal.text)

/-- Text of the token that a handle names, empty if there is none. -/
def text (s : TokenStream) (h : Handle) : String :=
  match s.get? h with
  | some token => s.textOf token
  | none => ""

/-- A literal that stands for the one of `target`, or for what that one stands for. -/
def aliasOf (s : TokenStream) (target : Handle) : Literal :=
  .ofAlias (((s.get? target).bind (·.literal.aliasTarget?)).getD target)

mutual

/-- Tokens of this stream and of the streams nested in it, in reading order. -/
def deepEntries : TokenStream → List (Handle × Token)
  | ⟨chain, nested⟩ =>
    let subs := deepEntriesAmong nested
    chain.entries.flatMap fun (h, token) => (h, token) :: (subs.lookup h.index).getD []

def deepEntriesAmong : List (Nat × Option TokenStream) → List (Nat × List (Handle × Token))
  | [] => []
  | (index, some s) :: rest => (index, deepEntries s) :: deepEntriesAmong rest
  | (index, none) :: rest => (index, []) :: deepEntriesAmong rest

end

/-- Gives a token a copy of the literal that its alias stands for. -/
def copyTarget (s : TokenStream) (h target : Handle) : TokenStream :=
  match s.resolve? target with
  | some literal => s.setLiteral h literal
  | none => s

/-- Tokens outside `targets` that are aliases of one of them take copies of what they stand for. -/
def detachAliases (s : TokenStream) (targets : List Handle) : TokenStream :=
  let aliases := s.deepEntries.filterMap fun (h, token) =>
    if targets.contains h then none
    else token.literal.aliasTarget?.bind fun target =>
      if targets.contains target then some (h, target) else none
  aliases.foldl (fun s (h, target) => s.copyTarget h target) s

/-- The text that line breaks have in this stream, if it has any. -/
def firstNewline? (s : TokenStream) : Option String := do
  (← s.tokens.find? (·.kind == .newLine)).literal.asText?

def newlineText (s : TokenStream) : String := s.firstNewline?.getD "\n"

/-- A line break as this stream writes them. -/
def newline (s : TokenStream) : Token :=
  { kind := .newLine, literal := .ofWritten s.newlineText }

/-- Writes every line break of this stream itself as `text`. -/
def setNewlines (s : TokenStream) (text : String) : TokenStream :=
  { s with
    chain := s.chain.mapItems fun token =>
      if token.kind == .newLine then { token with literal := .ofWritten text } else token }

/-- Kinds and texts of the tokens, as a list in brackets. -/
def listing (s : TokenStream) : String :=
  let items := s.tokens.map fun token =>
    "(" ++ token.kind.label ++ ", " ++ Text.quoted (s.textOf token) ++ ")"
  "[" ++ ", ".intercalate items ++ "]"

end YaraRules.TokenStream
