import YaraRules.Detached
import YaraRules.Draft.Basic
import YaraRules.HexString

/-! Drafts of hex strings. -/

namespace YaraRules

inductive HexDraft where
  | byte (value : UInt8)
  /-- `??` -/
  | anyByte
  /-- A byte of which only the low nibble is fixed, like `?A`. -/
  | lowNibble (value : UInt8)
  /-- A byte of which only the high nibble is fixed, like `A?`. -/
  | highNibble (value : UInt8)
  /-- Any byte but one, like `~00`. -/
  | otherByte (value : UInt8)
  | jump (length : UInt64)
  | jumpBetween (low high : UInt64)
  | jumpFrom (low : UInt64)
  | jumpAny
  | alternation (alternatives : List (List HexDraft))
deriving Inhabited

namespace HexDraft

mutual

/-- Why a unit cannot be written. Of several reasons inside an alternation the first counts. -/
def fault? : HexDraft → Option DraftError
  | jumpBetween low high => if high < low then some (.invalidHexJump low high) else none
  | alternation alternatives =>
    let faults := faultsOfAll alternatives
    -- Units that cannot be written do not count as content.
    if faults.length < 2 || faults.any (·.all Option.isSome) then some .invalidHexAlternation
    else faults.findSome? (·.findSome? id)
  | _ => none

def faultsOf : List HexDraft → List (Option DraftError)
  | [] => []
  | unit :: rest => unit.fault? :: faultsOf rest

def faultsOfAll : List (List HexDraft) → List (List (Option DraftError))
  | [] => []
  | units :: rest => faultsOf units :: faultsOfAll rest

end

def digit (n : Nat) : Char := (Nat.digitChar (n % 16)).toUpper

def twoDigits (value : UInt8) : List Char := [digit (value.toNat / 16), digit value.toNat]

def emitByte (text : List Char) : Emit HexUnit :=
  return .byte (← Emit.written .hexByte (String.ofList text))

def emitBound (value : Option UInt64) : Emit (Option Handle) :=
  match value with
  | some value => return some (← Emit.literal .integer (.ofUInt value))
  | none => return none

def emitJump (low : Option UInt64) (ranged : Bool) (high : Option UInt64) :
    Emit HexUnit := do
  let opening ← Emit.fixed .hexJumpOpen
  let low ← emitBound low
  let dash ← if ranged then some <$> Emit.fixed .dash else pure none
  let high ← emitBound high
  let closing ← Emit.fixed .hexJumpClose
  return .jump opening low dash high closing

mutual

/-- Writes the tokens of a unit. -/
def emit : HexDraft → Emit HexUnit
  | byte value => emitByte (twoDigits value)
  | anyByte => emitByte ['?', '?']
  | lowNibble value => emitByte ['?', digit value.toNat]
  | highNibble value => emitByte [digit value.toNat, '?']
  | otherByte value => emitByte ('~' :: twoDigits value)
  | jump length => emitJump (some length) false none
  | jumpBetween low high => emitJump (some low) true (some high)
  | jumpFrom low => emitJump (some low) true none
  | jumpAny => emitJump none true none
  | alternation alternatives => do
    let opening ← Emit.fixed .hexAltOpen
    let alternatives ← emitAlternatives false alternatives
    let closing ← Emit.fixed .hexAltClose
    return .alternation opening alternatives closing

def emitAll : List HexDraft → Emit (List HexUnit)
  | [] => return []
  | unit :: rest => do
    let first ← unit.emit
    return first :: (← emitAll rest)

/-- Writes alternatives with bars between them, and before the first if `bar`. -/
def emitAlternatives (bar : Bool) : List (List HexDraft) → Emit (List (List HexUnit))
  | [] => return []
  | units :: rest => do
    if bar then let _ ← Emit.fixed .hexAltOr
    let first ← emitAll units
    return first :: (← emitAlternatives true rest)

end

/-- Why a hex string of these units cannot be written. -/
def faultOf? (units : List HexDraft) : Option DraftError :=
  if units.isEmpty then some .emptyHexString else (faultsOf units).findSome? id

/-- Writes a hex string in its braces. -/
def emitString (units : List HexDraft) : Emit HexString := do
  match faultOf? units with
  | some error => throw error
  | none =>
    let opening ← Emit.fixed .hexStart
    let units ← emitAll units
    let closing ← Emit.fixed .hexEnd
    return ⟨opening, units, closing⟩

/-- The hex string with tokens of its own. -/
def build (id : ChainId) (units : List HexDraft) : Except DraftError (Detached HexString) := do
  let (string, tokens) ← (emitString units).run (.empty id)
  return ⟨tokens, string⟩

end HexDraft

end YaraRules
