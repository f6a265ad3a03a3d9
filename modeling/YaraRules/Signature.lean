import YaraRules.ValueType

/-! Signatures of module functions. A signature is written as a mangled name
`name@arguments@result`, one letter for each type. -/

namespace YaraRules

/-- Why a mangled name cannot be read. -/
inductive MangleError where
  | notThreeParts (mangled : String)
  | unknownLetter (letter : Char)
  | regexpResult (mangled : String)
deriving DecidableEq

def MangleError.message : MangleError → String
  | notThreeParts mangled => "invalid mangled name: `" ++ mangled ++ "`"
  | unknownLetter letter => "unexpected type in mangled name: `" ++ String.ofList [letter] ++ "`"
  | regexpResult mangled => "functions can't return regexps: `" ++ mangled ++ "`"

structure Signature where
  mangled : String
  args : List ValueType
  result : ValueType
deriving DecidableEq, Inhabited

namespace Signature

/-- Pieces of a text between the occurrences of a character. -/
def pieces (separator : Char) : List Char → List (List Char)
  | [] => [[]]
  | c :: rest =>
    if c == separator then [] :: pieces separator rest
    else
      match pieces separator rest with
      | piece :: others => (c :: piece) :: others
      | [] => [[c]]

private def typeOfLetter (letter : Char) : Except MangleError ValueType :=
  match ValueType.ofLetter? letter with
  | some type => .ok type
  | none => .error (.unknownLetter letter)

/-- Types written in a mangled name. Only the first letter of the result counts,
and a missing one stands for an undefined result. -/
def unmangle (mangled : String) : Except MangleError (List ValueType × ValueType) :=
  match pieces '@' mangled.toList with
  | [_, args, result] => do
    let args ← args.mapM typeOfLetter
    match result with
    | [] => return (args, .undefined)
    | letter :: _ =>
      if letter == 'r' then .error (.regexpResult mangled)
      else return (args, ← typeOfLetter letter)
  | _ => .error (.notThreeParts mangled)

def ofMangled (mangled : String) : Except MangleError Signature := do
  let (args, result) ← unmangle mangled
  return ⟨mangled, args, result⟩

/-- The signature of a function declared by its types. -/
def declared (name : String) (args : List ValueType) (result : ValueType) : Signature :=
  ⟨name ++ "@" ++ String.ofList (args.map ValueType.letter) ++ "@" ++
    String.ofList [result.letter], args, result⟩

/-- True if `actual` may be passed for `expected`: an integer goes for a float and
an undefined value for anything. -/
def passes (expected actual : ValueType) : Bool :=
  expected == actual || (expected == .float && actual == .integer) || actual == .undefined

/-- True if arguments of these types may be passed. -/
def accepts (s : Signature) (actual : List ValueType) : Bool :=
  s.args.length == actual.length && (s.args.zip actual).all fun (e, a) => passes e a

/-- The argument types in parentheses. -/
def text (s : Signature) : String :=
  "(" ++ ", ".intercalate (s.args.map fun t => String.ofList [t.letter]) ++ ")"

/-- Places a signature into a list ordered by mangled name; one that is there already is kept. -/
def insertSorted (s : Signature) : List Signature → List Signature
  | [] => [s]
  | t :: rest =>
    if s.mangled < t.mangled then s :: t :: rest
    else if s.mangled == t.mangled then t :: rest
    else t :: insertSorted s rest

end Signature

end YaraRules
