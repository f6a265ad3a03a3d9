import YaraRules.HexString
import YaraRules.Regexp.Reader

/-! Definitions of the strings section: a name, a value and modifiers. -/

namespace YaraRules

inductive StringContent where
  /-- A text between quotes. -/
  | plain (token : Handle)
  | hex (string : HexString)
  | regexp (token : Handle) (regexp : Regexp)
deriving Inhabited

inductive ModifierKind where
  | ascii
  | wide
  | nocase
  | fullword
  | privately
  /-- With the range of keys, unless all of them are used. -/
  | xor (keys : Option (UInt8 × UInt8))
  /-- With the alphabet, unless it is the usual one. -/
  | base64 (alphabet : Option String)
  | base64wide (alphabet : Option String)
deriving DecidableEq, Inhabited

def ModifierKind.keyword : ModifierKind → String
  | ascii => "ascii"
  | wide => "wide"
  | nocase => "nocase"
  | fullword => "fullword"
  | privately => "private"
  | xor _ => "xor"
  | base64 _ => "base64"
  | base64wide _ => "base64wide"

/-- A modifier with its first and last token. -/
structure StringModifier where
  kind : ModifierKind
  first : Handle
  last : Handle
deriving Inhabited

structure StringDefinition where
  /-- Token of the name; references to the string are aliases of it. -/
  id : Handle
  assign : Handle
  content : StringContent
  modifiers : List StringModifier
deriving Inhabited

namespace StringModifier

/-- The modifier as written, without blanks. -/
def text (m : StringModifier) (tokens : TokenStream) : String :=
  match tokens.range m.first m.last with
  | .ok range => "".intercalate (range.map fun (h, _) => tokens.text h)
  | .error _ => ""

end StringModifier

namespace StringDefinition

/-- Name of the string with its dollar sign. -/
def name (s : StringDefinition) (tokens : TokenStream) : String := tokens.text s.id

def isAnonymous (s : StringDefinition) (tokens : TokenStream) : Bool := s.name tokens == "$"

def isPlain (s : StringDefinition) : Bool := s.content matches .plain _

def isHex (s : StringDefinition) : Bool := s.content matches .hex _

def isRegexp (s : StringDefinition) : Bool := s.content matches .regexp _ _

def hasModifier (s : StringDefinition) (keyword : String) : Bool :=
  s.modifiers.any (·.kind.keyword == keyword)

/-- Bytes meant by a plain string. -/
def meaning? (s : StringDefinition) (tokens : TokenStream) : Option Bytes :=
  match s.content with
  | .plain token => (tokens.get? token).map (·.literal.meaning)
  | _ => none

/-- The value as written, like `"foo"`, `{ 01 02 }` or `/foo/i`. -/
def valueText (s : StringDefinition) (tokens : TokenStream) : String :=
  match s.content with
  | .plain token => tokens.text token
  | .hex string => string.text tokens
  | .regexp token _ => tokens.text token

def modifiersText (s : StringDefinition) (tokens : TokenStream) : String :=
  " ".intercalate (s.modifiers.map (·.text tokens))

/-- The whole definition, like `$a = "foo" ascii wide`. -/
def text (s : StringDefinition) (tokens : TokenStream) : String :=
  let definition := s.name tokens ++ " = " ++ s.valueText tokens
  if s.modifiers.isEmpty then definition else definition ++ " " ++ s.modifiersText tokens

def first (s : StringDefinition) : Handle := s.id

def last (s : StringDefinition) : Handle :=
  match s.modifiers.getLast? with
  | some modifier => modifier.last
  | none =>
    match s.content with
    | .plain token => token
    | .hex string => string.closing
    | .regexp token _ => token

/-- The definition with other handles for its tokens. -/
def mapHandles (f : Handle → Handle) (s : StringDefinition) : StringDefinition where
  id := f s.id
  assign := f s.assign
  content :=
    match s.content with
    | .plain token => .plain (f token)
    | .hex string => .hex (string.mapHandles f)
    | .regexp token regexp => .regexp (f token) regexp
  modifiers := s.modifiers.map fun m => ⟨m.kind, f m.first, f m.last⟩

end StringDefinition

end YaraRules
