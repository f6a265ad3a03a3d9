import YaraRules.Grammar.Basic

/-! The grammar of the strings section. -/

namespace YaraRules.Grammar

/-! ### Hex strings -/

def integerAt? (tokens : TokenStream) (h : Option Handle) : Option Int64 := do
  (← tokens.get? (← h)).literal.asInt?

/-- A jump whose bounds are in order. -/
def hexJump : Parse HexUnit := do
  let opening ← expect .hexJumpOpen
  let low ← accept? .integer
  let dash ← accept? .dash
  let high ←
    match dash with
    | some _ => accept? .integer
    | none => pure none
  if low.isNone && dash.isNone then unexpected "integer or '-'"
  let closing ← expect .hexJumpClose
  let tokens ← tokens
  match integerAt? tokens low, integerAt? tokens high with
  | some l, some h => if h < l then fail opening (.invalidHexJump l h)
  | _, _ => pure ()
  return .jump opening low dash high closing

/-- Units up to the first token that starts none. No more than `bound` tokens are left. -/
def hexUnits : Nat → Parse (List HexUnit)
  | 0 => return []
  | bound + 1 => do
    match ← peek? with
    | some .hexByte =>
      let token ← advance
      let text ← textOf token
      if (HexByte.read? text).isNone then fail token (.unknownToken text)
      return .byte token :: (← hexUnits bound)
    | some .hexJumpOpen =>
      let jump ← hexJump
      return jump :: (← hexUnits bound)
    | some .hexAltOpen =>
      let opening ← advance
      let alternative : Parse (List HexUnit) := do
        let units ← hexUnits bound
        if units.isEmpty then unexpected "hex byte" else return units
      let alternatives ← separated .hexAltOr alternative bound
      if alternatives.length < 2 then unexpected "'|'"
      let closing ← expect .hexAltClose
      return .alternation opening alternatives closing :: (← hexUnits bound)
    | _ => return []

def hexString : Parse HexString := do
  let opening ← expect .hexStart
  let units ← hexUnits (← remaining)
  if units.isEmpty then unexpected "hex byte"
  let closing ← expect .hexEnd
  breakAfter opening (spansLines (← tokens) opening closing)
  return ⟨opening, units, closing⟩

/-! ### Modifiers -/

/-- Key of an xor modifier. -/
def xorKey (token : Handle) : Parse UInt8 := do
  match integerAt? (← tokens) (some token) with
  | some value =>
    if 0 ≤ value && value ≤ 255 then return UInt8.ofNat value.toInt.toNat
    else fail token .xorKeyOutOfBounds
  | none => fail token .xorKeyOutOfBounds

/-- The keys after `xor`, with the last token of the modifier. -/
def xorModifier (first : Handle) : Parse (ModifierKind × Handle) := do
  match ← accept? .openParen with
  | none => return (.xor none, first)
  | some _ =>
    let low ← xorKey (← expect .integer)
    let high ←
      match ← accept? .minus with
      | some dash =>
        refine dash .dash
        let token ← expect .integer
        let high ← xorKey token
        if high < low then fail token .invalidXorRange
        pure high
      | none => pure low
    let closing ← expect .closeParen
    return (.xor (some (low, high)), closing)

/-- The alphabet after `base64` or `base64wide`, with the last token of the modifier. -/
def alphabet (first : Handle) : Parse (Option String × Handle) := do
  match ← accept? .openParen with
  | none => return (none, first)
  | some _ =>
    let token ← expect .string
    checkEscapes token
    let bytes : Bytes := (((← tokens).get? token).map (·.literal.meaning)).getD []
    if bytes.length != 64 then fail token .invalidBase64Alphabet
    let closing ← expect .closeParen
    return (some bytes.toText, closing)

def startsModifier : TokenKind → Bool
  | .kwAscii | .kwWide | .kwNocase | .kwFullword | .kwPrivate | .kwXor | .kwBase64
  | .kwBase64Wide => true
  | _ => false

def modifier (kind : TokenKind) : Parse StringModifier := do
  let first ← advance
  match kind with
  | .kwAscii => return ⟨.ascii, first, first⟩
  | .kwWide => return ⟨.wide, first, first⟩
  | .kwNocase => return ⟨.nocase, first, first⟩
  | .kwFullword => return ⟨.fullword, first, first⟩
  | .kwPrivate =>
    refine first .kwPrivateString
    return ⟨.privately, first, first⟩
  | .kwXor =>
    let (kind, last) ← xorModifier first
    return ⟨kind, first, last⟩
  | .kwBase64 =>
    let (letters, last) ← alphabet first
    return ⟨.base64 letters, first, last⟩
  | .kwBase64Wide =>
    let (letters, last) ← alphabet first
    return ⟨.base64wide letters, first, last⟩
  | _ => unexpected "string modifier"

/-- True if strings with this content can have the modifier. -/
def allows : StringContent → ModifierKind → Bool
  | .plain _, _ => true
  | .hex _, .privately => true
  | .hex _, _ => false
  | .regexp _ _, .xor _ | .regexp _ _, .base64 _ | .regexp _ _, .base64wide _ => false
  | .regexp _ _, _ => true

def contentName : StringContent → String
  | .hex _ => "hex strings"
  | _ => "regular expressions"

def isBase64 (keyword : String) : Bool := keyword == "base64" || keyword == "base64wide"

/-- Modifiers that exclude each other, in one order of the two. -/
def excludes (a b : String) : Bool :=
  (a == "nocase" && (b == "xor" || isBase64 b)) || (isBase64 a && (b == "xor" || b == "fullword"))

/-- Modifiers that cannot be used together. -/
def incompatible (a b : String) : Bool := excludes a b || excludes b a

/-- Ends the reading unless a modifier goes with the content and with those before it. -/
def checkModifier (content : StringContent) (before : List StringModifier)
    (m : StringModifier) : Parse Unit := do
  let keyword := m.kind.keyword
  if !allows content m.kind then fail m.first (.invalidModifier keyword (contentName content))
  before.forM fun other =>
    let otherKeyword := other.kind.keyword
    if otherKeyword == keyword then fail m.first (.duplicateModifier keyword)
    else if incompatible otherKeyword keyword then
      fail m.first (.incompatibleModifiers otherKeyword keyword)
    else pure ()

/-- Modifiers after those before. No more than `bound` tokens are left. -/
def modifiers (content : StringContent) : Nat → List StringModifier → Parse (List StringModifier)
  | 0, before => return before
  | bound + 1, before => do
    match ← peek? with
    | some kind =>
      if startsModifier kind then
        let m ← modifier kind
        checkModifier content before m
        modifiers content bound (before ++ [m])
      else return before
    | none => return before

/-! ### Definitions -/

def stringContent : Parse StringContent := do
  match ← peek? with
  | some .string =>
    let token ← advance
    checkEscapes token
    return .plain token
  | some .hexStart => return .hex (← hexString)
  | some .regexp =>
    let token ← advance
    return .regexp token (← readRegexp token)
  | _ => unexpected "string, hex string or regexp"

def stringDefinition : Parse StringDefinition := do
  let id ← expect .stringName
  refine id .stringDefinition
  let assign ← expect .assign
  let content ← stringContent
  let modifiers ← modifiers content (← remaining) []
  return ⟨id, assign, content, modifiers⟩

/-- Reads a definition and adds it to the strings of the rule. Only anonymous
strings may share their name. -/
def addString : Parse Unit := do
  let string ← stringDefinition
  let id ← textOf string.id
  let strings := (← get).strings
  if id == "$" then modify fun s => { s with strings := strings.insertAgain id string }
  else
    match strings.insert? id string with
    | some strings => modify fun s => { s with strings }
    | none => fail string.id (.duplicateString id)

def stringSection : Parse Section := do
  let keyword ← expect .kwStrings
  let colon ← expect .colon
  if (← peek?) != some .stringName then unexpected "string identifier"
  let _ ← itemsWhile (· == .stringName) addString (← remaining)
  return ⟨keyword, colon⟩

end YaraRules.Grammar
