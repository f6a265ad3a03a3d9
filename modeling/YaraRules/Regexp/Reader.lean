import YaraRules.Regexp.Basic

/-! Reading of regular expressions. Groups that are still open wait on a stack,
innermost first, so the pattern is read in one pass from left to right. -/

namespace YaraRules.Regexp

/-- Why a regular expression cannot be read. -/
inductive Fault where
  | noOpeningSlash
  | noClosingSlash
  | unknownModifier (c : Char)
  | unmatchedParen
  | missingParen
  | missingBracket
  | trailingBackslash
  | nothingToRepeat (repetition : String)
  | invalidRepetition (text : String)
deriving DecidableEq

def Fault.message : Fault → String
  | noOpeningSlash => "regular expression must start with '/'"
  | noClosingSlash => "regular expression must end with '/'"
  | unknownModifier c => "unknown modifier '" ++ String.ofList [c] ++ "'"
  | unmatchedParen => "unmatched ')'"
  | missingParen => "missing ')'"
  | missingBracket => "missing ']'"
  | trailingBackslash => "trailing backslash"
  | nothingToRepeat repetition => "nothing to repeat before '" ++ repetition ++ "'"
  | invalidRepetition text => "invalid repetition '\x7b" ++ text ++ "\x7d'"

/-- A group that is being read: its finished alternatives and the parts of the
current one, latest first. -/
structure Frame where
  alternatives : List Pattern := []
  parts : List Pattern := []

namespace Frame

/-- The current alternative; one part stands alone. -/
def alternative (f : Frame) : Pattern :=
  match f.parts.reverse with
  | [part] => part
  | parts => .concat parts

/-- The whole group; one alternative stands alone. -/
def content (f : Frame) : Pattern :=
  match (f.alternative :: f.alternatives).reverse with
  | [alternative] => alternative
  | alternatives => .or alternatives

def add (f : Frame) (part : Pattern) : Frame := { f with parts := part :: f.parts }

def nextAlternative (f : Frame) : Frame :=
  { alternatives := f.alternative :: f.alternatives }

end Frame

/-- Rest of a class up to its closing bracket, and its length with the bracket. -/
def classBody : List Char → Except Fault (List Char × Nat)
  | [] => .error .missingBracket
  | ']' :: _ => .ok ([], 1)
  | ['\\'] => .error .trailingBackslash
  | '\\' :: c :: rest => do
    let (body, length) ← classBody rest
    return ('\\' :: c :: body, length + 2)
  | c :: rest => do
    let (body, length) ← classBody rest
    return (c :: body, length + 1)

/-- A class after its opening bracket. A closing bracket in first place belongs to it. -/
def classAfter (text : List Char) : Except Fault (Pattern × Nat) := do
  let negated := text.head? == some '^'
  let rest := if negated then text.drop 1 else text
  let bracket := rest.head? == some ']'
  let (body, length) ← classBody (if bracket then rest.drop 1 else rest)
  let body := if bracket then ']' :: body else body
  return (.charClass negated (String.ofList body),
    length + (if negated then 1 else 0) + (if bracket then 1 else 0))

/-- Digits and commas up to a closing brace. -/
def boundsText : List Char → Option (List Char)
  | [] => none
  | '\x7d' :: _ => some []
  | c :: rest => if c.isDigit || c == ',' then (boundsText rest).map (c :: ·) else none

/-- Value of decimal digits. -/
def decimalValue (digits : List Char) : Nat :=
  digits.foldl (fun value c => value * 10 + (c.toNat - 48)) 0

/-- Greatest bound of a repetition. -/
def maxBound : Nat := 4294967295

def bound? (text digits : List Char) : Except Fault (Option Nat) :=
  if digits.isEmpty then .ok none
  else
    let value := decimalValue digits
    if value ≤ maxBound then .ok (some value)
    else .error (.invalidRepetition (String.ofList text))

/-- A repetition in braces after the opening one, and its length with the closing
one. What is no repetition leaves the brace a character of its own. -/
def boundsAfter (text : List Char) : Except Fault (Option (Repetition × Nat)) :=
  match boundsText text with
  | none => .ok none
  | some bounds =>
    let least := bounds.takeWhile (· != ',')
    match bounds.drop least.length with
    | [] =>
      if bounds.isEmpty then .ok none
      else do
        let count ← bound? bounds bounds
        return some (.exactly (count.getD 0), bounds.length + 1)
    | _ :: most =>
      if most.contains ',' || (least.isEmpty && most.isEmpty) then .ok none
      else do
        let low ← bound? bounds least
        let high ← bound? bounds most
        match low, high with
        | some l, some h =>
          if h < l then .error (.invalidRepetition (String.ofList bounds))
          else return some (.between low high, bounds.length + 1)
        | _, _ => return some (.between low high, bounds.length + 1)

/-- Repeats the latest part. A question mark after the repetition makes it lazy. -/
def Frame.repeatLast (f : Frame) (repetition : Repetition) (lazy : Bool) : Except Fault Frame :=
  match f.parts with
  | [] => .error (.nothingToRepeat repetition.text)
  | part :: parts =>
    if part.isAnchor then .error (.nothingToRepeat repetition.text)
    else .ok { f with parts := .iteration part repetition (!lazy) :: parts }

def simpleRepetition? : Char → Option Repetition
  | '*' => some .zeroOrMore
  | '+' => some .oneOrMore
  | '?' => some .zeroOrOne
  | _ => none

def simplePart : Char → Pattern
  | '.' => .any
  | '^' => .lineStart
  | '$' => .lineEnd
  | c => .char c

/-- Reads the rest of a pattern inside the open groups `outer` and `frame`, after
`skip` characters that are already part of it. -/
def readFrom (outer : List Frame) (frame : Frame) : Nat → List Char → Except Fault Pattern
  | _, [] => if outer.isEmpty then .ok frame.content else .error .missingParen
  | skip + 1, _ :: rest => readFrom outer frame skip rest
  | 0, c :: rest =>
    if c == '(' then readFrom (frame :: outer) {} 0 rest
    else if c == ')' then
      match outer with
      | [] => .error .unmatchedParen
      | around :: outer => readFrom outer (around.add (.group frame.content)) 0 rest
    else if c == '|' then readFrom outer frame.nextAlternative 0 rest
    else if c == '[' then
      match classAfter rest with
      | .ok (part, length) => readFrom outer (frame.add part) length rest
      | .error fault => .error fault
    else if c == '\\' then
      match rest with
      | [] => .error .trailingBackslash
      | e :: _ => readFrom outer (frame.add (.escaped e)) 1 rest
    else
      match simpleRepetition? c with
      | some repetition =>
        let lazy := rest.head? == some '?'
        match frame.repeatLast repetition lazy with
        | .ok frame => readFrom outer frame (if lazy then 1 else 0) rest
        | .error fault => .error fault
      | none =>
        if c == '\x7b' && !frame.parts.isEmpty then
          match boundsAfter rest with
          | .error fault => .error fault
          | .ok none => readFrom outer (frame.add (.char c)) 0 rest
          | .ok (some (repetition, length)) =>
            let lazy := (rest.drop length).head? == some '?'
            match frame.repeatLast repetition lazy with
            | .ok frame => readFrom outer frame (if lazy then length + 1 else length) rest
            | .error fault => .error fault
        else readFrom outer (frame.add (simplePart c)) 0 rest

/-- Reads the part between the slashes. -/
def readPattern (text : String) : Except Fault Pattern := readFrom [] {} 0 text.toList

/-- What is before and after the last occurrence of a character. -/
def splitLast (c : Char) : List Char → Option (List Char × List Char)
  | [] => none
  | d :: rest =>
    match splitLast c rest with
    | some (before, after) => some (d :: before, after)
    | none => if d == c then some ([], rest) else none

/-- Reads a regular expression with its slashes and modifiers. -/
def read (text : String) : Except Fault Regexp :=
  match text.toList with
  | '/' :: body =>
    match splitLast '/' body with
    | none => .error .noClosingSlash
    | some (pattern, modifiers) =>
      match modifiers.find? (fun c => c != 'i' && c != 's') with
      | some c => .error (.unknownModifier c)
      | none => do return ⟨← readFrom [] {} 0 pattern, String.ofList modifiers⟩
  | _ => .error .noOpeningSlash

end YaraRules.Regexp
