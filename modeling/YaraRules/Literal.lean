import YaraRules.Chain
import YaraRules.Decimal.Style
import YaraRules.Symbol
import YaraRules.Text.Escape

/-! Literals: the value that a token carries and how it is written. -/

namespace YaraRules

inductive LiteralValue where
  | text (value : String)
  | bool (value : Bool)
  | int (value : Int64)
  | uint (value : UInt64)
  /-- A binary64 number by its bits. -/
  | float (bits : UInt64)
  /-- An identifier that was resolved to a symbol. -/
  | symbol (symbol : Symbol)
  /-- The literal of another token, so that a rename reaches every reference. -/
  | alias (target : Handle)
deriving Inhabited

/-- A value with the exact text it had in the source, if that is kept. -/
structure Literal where
  value : LiteralValue
  formatted : Option String := none
  /-- A text is stored as it is written, escape sequences included. -/
  escaped : Bool := false
deriving Inhabited

namespace Literal

/-- Naturals below this limit fit a signed number of 64 bits. -/
def signedLimit : Nat := 0x8000000000000000

/-- A plain text, to be escaped when it is written. -/
def ofText (s : String) : Literal := ⟨.text s, none, false⟩

/-- A text in the form it is written in. -/
def ofWritten (s : String) : Literal := ⟨.text s, none, true⟩

def ofBool (b : Bool) : Literal := ⟨.bool b, none, false⟩

def ofInt (i : Int64) : Literal := ⟨.int i, none, false⟩

def ofUInt (u : UInt64) : Literal := ⟨.uint u, none, false⟩

def ofFloatBits (bits : UInt64) : Literal := ⟨.float bits, none, false⟩

def ofSymbol (s : Symbol) : Literal := ⟨.symbol s, none, false⟩

def ofAlias (target : Handle) : Literal := ⟨.alias target, none, false⟩

/-- The same value, written as `s`. -/
def withFormatted (l : Literal) (s : String) : Literal := { l with formatted := some s }

/-- Another value; the kept text belonged to the old one. -/
def setValue (_ : Literal) (value : LiteralValue) : Literal := ⟨value, none, false⟩

def aliasTarget? (l : Literal) : Option Handle :=
  match l.value with
  | .alias target => some target
  | _ => none

def isAlias (l : Literal) : Bool := l.aliasTarget?.isSome

def asText? (l : Literal) : Option String :=
  match l.value with
  | .text s => some s
  | _ => none

/-- The value as a signed number, if it fits. -/
def asInt? (l : Literal) : Option Int64 :=
  match l.value with
  | .int i => some i
  | .uint u => if u.toNat < signedLimit then some (Int64.ofNat u.toNat) else none
  | _ => none

def asSymbol? (l : Literal) : Option Symbol :=
  match l.value with
  | .symbol s => some s
  | _ => none

/-- Text of the literal in source code, without the quotes around a string. An
alias has no text of its own. -/
def text (l : Literal) : String :=
  match l.formatted with
  | some s => s
  | none =>
    match l.value with
    | .text s => if l.escaped then s else Text.escape s
    | .bool b => if b then "true" else "false"
    | .int i => toString i.toInt
    | .uint u => toString u.toNat
    | .float bits => Decimal.literalStyle.render bits
    | .symbol s => s.name
    | .alias _ => ""

/-- The bytes that are meant, with escape sequences decoded. A text whose escapes
cannot be read stands for itself. -/
def meaning (l : Literal) : Bytes :=
  match l.value with
  | .text s =>
    if l.escaped then
      match Text.unescape s with
      | .ok bytes => bytes
      | .error _ => Bytes.ofText s
    else Bytes.ofText s
  | _ => Bytes.ofText l.text

end Literal

end YaraRules
