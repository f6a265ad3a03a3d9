import YaraRules.TokenStream.Alias

/-! Hex strings, like `{ 4D 5A [2-4] ( 00 | 01 ) }`. Bytes, jumps and alternatives
refer to their tokens, and their text comes from there. -/

namespace YaraRules

inductive Nibble where
  | value (n : Fin 16)
  | wildcard
deriving DecidableEq, Inhabited

/-- A byte as it is meant, possibly with nibbles left open. -/
structure HexByte where
  negated : Bool
  high : Nibble
  low : Nibble
deriving DecidableEq, Inhabited

def nibble? (c : Char) : Option Nibble :=
  if c == '?' then some .wildcard
  else if c.isDigit then some (.value (Fin.ofNat 16 (c.toNat - 48)))
  else if 'a' ≤ c && c ≤ 'f' then some (.value (Fin.ofNat 16 (c.toNat - 87)))
  else if 'A' ≤ c && c ≤ 'F' then some (.value (Fin.ofNat 16 (c.toNat - 55)))
  else none

def pair? (negated : Bool) : List Char → Option HexByte
  | [high, low] => do return ⟨negated, ← nibble? high, ← nibble? low⟩
  | _ => none

/-- Reads a byte as it is written. A negated byte has to fix one nibble at least. -/
def HexByte.read? (text : String) : Option HexByte :=
  match text.toList with
  | '~' :: digits =>
    match pair? true digits with
    | some byte => if byte.high = .wildcard ∧ byte.low = .wildcard then none else some byte
    | none => none
  | digits => pair? false digits

/-- An element of a hex string. -/
inductive HexUnit where
  | byte (token : Handle)
  /-- A jump like `[2]`, `[2-4]`, `[2-]` or `[-]`. -/
  | jump (opening : Handle) (low dash high : Option Handle) (closing : Handle)
  /-- Alternatives like `( 00 | 01 02 )`. -/
  | alternation (opening : Handle) (alternatives : List (List HexUnit)) (closing : Handle)
deriving Inhabited

structure HexString where
  opening : Handle
  units : List HexUnit
  closing : Handle
deriving Inhabited

namespace HexUnit

def boundText (tokens : TokenStream) : Option Handle → String
  | some h => tokens.text h
  | none => ""

mutual

def text (tokens : TokenStream) : HexUnit → String
  | byte token => tokens.text token
  | jump _ low dash high _ =>
    match dash with
    | some _ => "[" ++ boundText tokens low ++ "-" ++ boundText tokens high ++ "]"
    | none => "[" ++ boundText tokens low ++ "]"
  | alternation _ alternatives _ =>
    "( " ++ " | ".intercalate (alternativeTexts tokens alternatives) ++ " )"

def texts (tokens : TokenStream) : List HexUnit → List String
  | [] => []
  | unit :: rest => unit.text tokens :: texts tokens rest

def alternativeTexts (tokens : TokenStream) : List (List HexUnit) → List String
  | [] => []
  | units :: rest => " ".intercalate (texts tokens units) :: alternativeTexts tokens rest

end

def first : HexUnit → Handle
  | byte token => token
  | jump opening _ _ _ _ => opening
  | alternation opening _ _ => opening

def last : HexUnit → Handle
  | byte token => token
  | jump _ _ _ _ closing => closing
  | alternation _ _ closing => closing

mutual

/-- The unit with other handles for its tokens. -/
def mapHandles (f : Handle → Handle) : HexUnit → HexUnit
  | byte token => byte (f token)
  | jump opening low dash high closing =>
    jump (f opening) (low.map f) (dash.map f) (high.map f)
      (f closing)
  | alternation opening alternatives closing =>
    alternation (f opening) (mapHandlesAmong f alternatives) (f closing)

def mapHandlesAll (f : Handle → Handle) : List HexUnit → List HexUnit
  | [] => []
  | unit :: rest => unit.mapHandles f :: mapHandlesAll f rest

def mapHandlesAmong (f : Handle → Handle) : List (List HexUnit) → List (List HexUnit)
  | [] => []
  | units :: rest => mapHandlesAll f units :: mapHandlesAmong f rest

end

end HexUnit

namespace HexString

def text (s : HexString) (tokens : TokenStream) : String :=
  if s.units.isEmpty then "\x7b \x7d"
  else "\x7b " ++ " ".intercalate (HexUnit.texts tokens s.units) ++ " \x7d"

def mapHandles (f : Handle → Handle) (s : HexString) : HexString :=
  ⟨f s.opening, HexUnit.mapHandlesAll f s.units, f s.closing⟩

end HexString

end YaraRules
