import YaraRules.Draft.Condition
import YaraRules.Draft.HexString
import YaraRules.Rule

/-! Drafts of rules. A draft is filled step by step; the first step that goes wrong is
remembered and reported when the rule is built. -/

namespace YaraRules

inductive ContentDraft where
  /-- A text, to be escaped when it is written. -/
  | plain (text : String)
  | hex (units : List HexDraft)
  | regexp (text : String) (regexp : Regexp)
deriving Inhabited

structure StringDraft where
  id : String
  content : ContentDraft
  modifiers : List ModifierKind := []
deriving Inhabited

structure RuleDraft where
  name : Option String := none
  isGlobal : Bool := false
  isPrivate : Bool := false
  tags : List String := []
  comments : List String := []
  metas : List (String × TokenKind × Literal) := []
  strings : List StringDraft := []
  condition : ConditionDraft := .boolean true
  error : Option DraftError := none
deriving Inhabited

namespace RuleDraft

def fail (draft : RuleDraft) (error : DraftError) : RuleDraft :=
  { draft with error := draft.error.or (some error) }

/-- Goes on with `next` if `name` is an identifier. -/
def named (draft : RuleDraft) (name : String) (next : RuleDraft) : RuleDraft :=
  if Lexer.isIdentifier name then next else draft.fail (.invalidIdentifier name)

def withName (draft : RuleDraft) (name : String) : RuleDraft :=
  draft.named name { draft with name := some name }

def markPrivate (draft : RuleDraft) : RuleDraft := { draft with isPrivate := true }

def markGlobal (draft : RuleDraft) : RuleDraft := { draft with isGlobal := true }

/-- Adds a tag unless the rule has it. -/
def withTag (draft : RuleDraft) (tag : String) : RuleDraft :=
  draft.named tag
    (if draft.tags.contains tag then draft else { draft with tags := draft.tags ++ [tag] })

/-- Adds a comment below the opening brace. Line breaks in it become blanks. -/
def withComment (draft : RuleDraft) (text : String) : RuleDraft :=
  let line := text.toList.map fun c => if c == '\r' || c == '\n' then ' ' else c
  { draft with comments := draft.comments ++ [String.ofList line] }

def withMeta (draft : RuleDraft) (key : String) (kind : TokenKind) (value : Literal) :
    RuleDraft :=
  draft.named key { draft with metas := draft.metas ++ [(key, kind, value)] }

def withStringMeta (draft : RuleDraft) (key value : String) : RuleDraft :=
  draft.withMeta key .string (.ofText value)

def withIntMeta (draft : RuleDraft) (key : String) (value : Int64) : RuleDraft :=
  draft.withMeta key .integer (.ofInt value)

def withUIntMeta (draft : RuleDraft) (key : String) (value : UInt64) : RuleDraft :=
  draft.withMeta key .integer (.ofUInt value)

/-- Adds a number that is written in hexadecimal. -/
def withHexMeta (draft : RuleDraft) (key : String) (value : UInt64) : RuleDraft :=
  draft.withMeta key .integer ((Literal.ofUInt value).withFormatted (hexadecimal value.toNat))

def withBoolMeta (draft : RuleDraft) (key : String) (value : Bool) : RuleDraft :=
  draft.withMeta key .boolean (.ofBool value)

/-- Adds a string. Only anonymous strings may share their name. -/
def withString (draft : RuleDraft) (id : String) (content : ContentDraft) : RuleDraft :=
  if !isStringIdentifier id then draft.fail (.invalidStringIdentifier id)
  else if id != "$" && draft.strings.any (·.id == id) then draft.fail (.duplicateString id)
  else { draft with strings := draft.strings ++ [{ id, content }] }

def withPlain (draft : RuleDraft) (id text : String) : RuleDraft :=
  draft.withString id (.plain text)

def withHex (draft : RuleDraft) (id : String) (units : List HexDraft) : RuleDraft :=
  draft.withString id (.hex units)

def withRegexp (draft : RuleDraft) (id pattern modifiers : String) : RuleDraft :=
  let text := "/" ++ pattern ++ "/" ++ modifiers
  match Regexp.read text with
  | .ok regexp => draft.withString id (.regexp text regexp)
  | .error fault => draft.fail (.invalidRegexp text fault.message)

/-- Adds a modifier to the last string unless the string has it. -/
def withModifier (draft : RuleDraft) (modifier : ModifierKind) : RuleDraft :=
  match draft.strings.getLast? with
  | some string =>
    if string.modifiers.contains modifier then draft
    else
      let string := { string with modifiers := string.modifiers ++ [modifier] }
      { draft with strings := draft.strings.dropLast ++ [string] }
  | none => draft.fail .modifierWithoutString

def withXorRange (draft : RuleDraft) (low high : UInt8) : RuleDraft :=
  if high < low then draft.fail (.invalidXorRange low high)
  else draft.withModifier (.xor (some (low, high)))

def checkAlphabet (draft : RuleDraft) (alphabet : String) (next : RuleDraft) : RuleDraft :=
  if alphabet.utf8ByteSize == 64 then next else draft.fail .invalidBase64Alphabet

def withBase64 (draft : RuleDraft) (alphabet : String) : RuleDraft :=
  draft.checkAlphabet alphabet (draft.withModifier (.base64 (some alphabet)))

def withBase64Wide (draft : RuleDraft) (alphabet : String) : RuleDraft :=
  draft.checkAlphabet alphabet (draft.withModifier (.base64wide (some alphabet)))

/-- Sets the condition, which is `true` otherwise. -/
def withCondition (draft : RuleDraft) (condition : ConditionDraft) : RuleDraft :=
  { draft with condition }

/-! ### Building -/

def emitTokens : List (TokenKind × Literal) → Emit (List Handle)
  | [] => return []
  | (kind, literal) :: rest => do
    let token ← Emit.literal kind literal
    return token :: (← emitTokens rest)

/-- A section keyword on a line of its own. -/
def emitSection (kind : TokenKind) : Emit Section := do
  let keyword ← Emit.fixed kind
  let colon ← Emit.fixed .colon
  Emit.newline
  return ⟨keyword, colon⟩

def emitComments : List String → Emit Unit
  | [] => Emit.newline
  | comments => comments.forM fun comment => do
    let _ ← Emit.written .lineComment ("// " ++ comment)
    Emit.newline

def emitMetas : List (String × TokenKind × Literal) → Emit (List MetaEntry)
  | [] => return []
  | (key, kind, value) :: rest => do
    let key ← Emit.written .metaKey key
    let assign ← Emit.fixed .assign
    let value ← Emit.literal kind value
    Emit.newline
    return ⟨key, assign, value⟩ :: (← emitMetas rest)

def emitAlphabet (kind : TokenKind) (alphabet : Option String) :
    Emit (Handle × Handle) := do
  let first ← Emit.fixed kind
  match alphabet with
  | some alphabet =>
    let _ ← Emit.fixed .openParen
    let _ ← Emit.literal .string (.ofText alphabet)
    return (first, ← Emit.fixed .closeParen)
  | none => return (first, first)

/-- The first and the last token of a modifier. -/
def emitModifierTokens (modifier : ModifierKind) : Emit (Handle × Handle) := do
  let single (kind : TokenKind) : Emit (Handle × Handle) := do
    let token ← Emit.fixed kind
    return (token, token)
  let key (value : UInt8) : Emit Unit := do
    let _ ← Emit.literal .integer (.ofInt (Int64.ofNat value.toNat))
  match modifier with
  | .ascii => single .kwAscii
  | .wide => single .kwWide
  | .nocase => single .kwNocase
  | .fullword => single .kwFullword
  | .privately => single .kwPrivateString
  | .xor none => single .kwXor
  | .xor (some (low, high)) =>
    let first ← Emit.fixed .kwXor
    let _ ← Emit.fixed .openParen
    key low
    if low != high then
      let _ ← Emit.fixed .dash
      key high
    return (first, ← Emit.fixed .closeParen)
  | .base64 alphabet => emitAlphabet .kwBase64 alphabet
  | .base64wide alphabet => emitAlphabet .kwBase64Wide alphabet

def emitModifiers : List ModifierKind → Emit (List StringModifier)
  | [] => return []
  | kind :: rest => do
    let (first, last) ← emitModifierTokens kind
    return ⟨kind, first, last⟩ :: (← emitModifiers rest)

def emitContent : ContentDraft → Emit StringContent
  | .plain text => return .plain (← Emit.literal .string (.ofText text))
  | .hex units => return .hex (← HexDraft.emitString units)
  | .regexp text regexp => return .regexp (← Emit.written .regexp text) regexp

def emitString (draft : StringDraft) : Emit StringDefinition := do
  let id ← Emit.written .stringDefinition draft.id
  let assign ← Emit.fixed .assign
  let content ← emitContent draft.content
  let modifiers ← emitModifiers draft.modifiers
  return ⟨id, assign, content, modifiers⟩

def emitStrings (strings : NameTrie StringDefinition) :
    List StringDraft → Emit (NameTrie StringDefinition)
  | [] => return strings
  | draft :: rest => do
    let string ← emitString draft
    Emit.newline
    emitStrings (strings.insertAgain draft.id string) rest

def emitWords (words : List TokenKind) : Emit (List Handle) :=
  emitTokens (words.map fun kind => (kind, .ofWritten (kind.fixedText?.getD "")))

/-- Writes the tokens of a rule with the given name. -/
def emit (draft : RuleDraft) (name : String) : Emit Rule := do
  let modifiers ← emitWords
    ((if draft.isGlobal then [.kwGlobal] else []) ++ (if draft.isPrivate then [.kwPrivate] else []))
  let keyword ← Emit.fixed .kwRule
  let nameToken ← Emit.written .ruleName name
  let tagColon ← if draft.tags.isEmpty then pure none else some <$> Emit.fixed .colon
  let tags ← emitTokens (draft.tags.map fun tag => (.tag, .ofWritten tag))
  let opening ← Emit.fixed .ruleBegin
  emitComments draft.comments
  let metaHeader ← if draft.metas.isEmpty then pure none else some <$> emitSection .kwMeta
  let metas ← emitMetas draft.metas
  let stringHeader ← if draft.strings.isEmpty then pure none else some <$> emitSection .kwStrings
  let strings ← emitStrings {} draft.strings
  let conditionSection ← emitSection .kwCondition
  let condition ← draft.condition.emit
  Emit.newline
  let closing ← Emit.fixed .ruleEnd
  return {
    modifiers, keyword, tagColon, tags, opening, metas, strings, conditionSection, condition
    closing
    name := nameToken
    metaSection := metaHeader
    stringSection := stringHeader
    location := {}
    symbol := Rule.symbolNamed name }

/-- The rule with tokens of its own. -/
def build (id : ChainId) (draft : RuleDraft) : Except DraftError (Detached Rule) :=
  match draft.error, draft.name with
  | some error, _ => .error error
  | none, none => .error .missingName
  | none, some name => do
    let (rule, tokens) ← (draft.emit name).run (.empty id)
    return ⟨tokens, rule⟩

end RuleDraft

end YaraRules
