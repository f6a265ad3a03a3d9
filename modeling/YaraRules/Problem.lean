import YaraRules.Location

/-! What can be wrong with a source file. A problem stops the reading of the file
and is reported with the place where it was found. -/

namespace YaraRules

inductive Problem where
  | syntaxError (found expected : String)
  | unknownToken (text : String)
  | invalidEscape (text : String)
  | integerOutOfRange (text : String)
  | duplicateRule (name : String)
  | duplicateString (id : String)
  | duplicateTag (tag : String)
  | undefinedString (id : String)
  | anonymousOutsideLoop (id : String)
  | unmatchedWildcard (pattern : String)
  | themWithoutStrings
  | unknownModule (name : String)
  | unknownIdentifier (name : String)
  | redefinedIdentifier (name : String)
  | invalidOperand (operator expected side : String)
  | invalidAccess (expression expected : String)
  | wrongArguments (function given : String)
  | xorKeyOutOfBounds
  | invalidXorRange
  | invalidBase64Alphabet
  | duplicateModifier (modifier : String)
  | incompatibleModifiers (first second : String)
  | invalidModifier (modifier kind : String)
  | invalidRange (low high : Int64)
  | invalidHexJump (low high : Int64)
  | invalidRegexp (reason : String)
  | includeFailed (path reason : String)
  | includeCycle (path : String)
deriving DecidableEq

namespace Problem

def message : Problem → String
  | syntaxError found expected =>
    "syntax error, unexpected " ++ found ++ ", expected " ++ expected
  | unknownToken text => "unknown token '" ++ text ++ "'"
  | invalidEscape text => "invalid escape sequence in '" ++ text ++ "'"
  | integerOutOfRange text => "integer literal '" ++ text ++ "' is out of range"
  | duplicateRule name => "Redefinition of rule '" ++ name ++ "'"
  | duplicateString id => "Redefinition of string '" ++ id ++ "'"
  | duplicateTag tag => "Duplicate tag '" ++ tag ++ "'"
  | undefinedString id => "Reference to undefined string '" ++ id ++ "'"
  | anonymousOutsideLoop id =>
    "Reference to anonymous string '" ++ id ++ "' outside of for-of loop"
  | unmatchedWildcard pattern => "No string matched with wildcard '" ++ pattern ++ "'"
  | themWithoutStrings => "Reference to strings using 'them' while no strings are defined"
  | unknownModule name => "Unrecognized module '" ++ name ++ "' imported"
  | unknownIdentifier name => "Unrecognized identifier '" ++ name ++ "' referenced"
  | redefinedIdentifier name => "Redefinition of identifier '" ++ name ++ "'"
  | invalidOperand operator expected side =>
    "operator '" ++ operator ++ "' expects " ++ expected ++ " on the " ++ side
  | invalidAccess expression expected => "'" ++ expression ++ "' is not " ++ expected
  | wrongArguments function given =>
    "No matching overload of function '" ++ function ++ "' for arguments " ++ given
  | xorKeyOutOfBounds => "XOR string modifier key is out of allowed range"
  | invalidXorRange => "XOR string modifier key range has lower bound above upper bound"
  | invalidBase64Alphabet => "Base64 alphabet must be 64 characters long"
  | duplicateModifier modifier => "Duplicate modifier '" ++ modifier ++ "'"
  | incompatibleModifiers first second =>
    "Modifiers '" ++ first ++ "' and '" ++ second ++ "' can't be used together"
  | invalidModifier modifier kind =>
    "Modifier '" ++ modifier ++ "' can't be used with " ++ kind
  | invalidRange low high =>
    "Invalid range (" ++ toString low.toInt ++ ".." ++ toString high.toInt ++ ")"
  | invalidHexJump low high =>
    "Invalid hex string jump [" ++ toString low.toInt ++ "-" ++ toString high.toInt ++ "]"
  | invalidRegexp reason => "Invalid regular expression: " ++ reason
  | includeFailed path reason => "Unable to include file '" ++ path ++ "': " ++ reason
  | includeCycle path => "Include of '" ++ path ++ "' creates a cycle"

/-- Name of the kind of problem. -/
def label : Problem → String
  | syntaxError .. => "SyntaxError"
  | unknownToken .. => "UnknownToken"
  | invalidEscape .. => "InvalidEscapeSequence"
  | integerOutOfRange .. => "IntegerOutOfRange"
  | duplicateRule .. => "DuplicateRule"
  | duplicateString .. => "DuplicateString"
  | duplicateTag .. => "DuplicateTag"
  | undefinedString .. => "UndefinedString"
  | anonymousOutsideLoop .. => "AnonymousStringOutsideLoop"
  | unmatchedWildcard .. => "UnmatchedStringWildcard"
  | themWithoutStrings => "ThemWithoutStrings"
  | unknownModule .. => "UnrecognizedModule"
  | unknownIdentifier .. => "UnrecognizedIdentifier"
  | redefinedIdentifier .. => "RedefinedIdentifier"
  | invalidOperand .. => "InvalidOperand"
  | invalidAccess .. => "InvalidAccess"
  | wrongArguments .. => "WrongArguments"
  | xorKeyOutOfBounds => "XorKeyOutOfBounds"
  | invalidXorRange => "InvalidXorRange"
  | invalidBase64Alphabet => "InvalidBase64Alphabet"
  | duplicateModifier .. => "DuplicateModifier"
  | incompatibleModifiers .. => "IncompatibleModifiers"
  | invalidModifier .. => "InvalidModifier"
  | invalidRange .. => "InvalidRange"
  | invalidHexJump .. => "InvalidHexJump"
  | invalidRegexp .. => "InvalidRegexp"
  | includeFailed .. => "IncludeError"
  | includeCycle .. => "IncludeCycle"

/-- Short code of the kind of problem. -/
def code : Problem → String
  | syntaxError .. => "E001"
  | unknownToken .. => "E002"
  | invalidEscape .. => "E003"
  | integerOutOfRange .. => "E004"
  | duplicateRule .. => "E005"
  | duplicateString .. => "E006"
  | duplicateTag .. => "E007"
  | undefinedString .. => "E008"
  | anonymousOutsideLoop .. => "E009"
  | unmatchedWildcard .. => "E010"
  | themWithoutStrings => "E011"
  | unknownModule .. => "E012"
  | unknownIdentifier .. => "E013"
  | redefinedIdentifier .. => "E014"
  | invalidOperand .. => "E015"
  | invalidAccess .. => "E016"
  | wrongArguments .. => "E017"
  | xorKeyOutOfBounds => "E018"
  | invalidXorRange => "E019"
  | invalidBase64Alphabet => "E020"
  | duplicateModifier .. => "E021"
  | incompatibleModifiers .. => "E022"
  | invalidModifier .. => "E023"
  | invalidRange .. => "E024"
  | invalidHexJump .. => "E025"
  | invalidRegexp .. => "E026"
  | includeFailed .. => "E027"
  | includeCycle .. => "E028"

end Problem

/-- A problem and where it was found. -/
structure ParseError where
  problem : Problem
  location : Location
deriving DecidableEq

namespace ParseError

def message (e : ParseError) : String := e.location.text ++ ": " ++ e.problem.message

end ParseError

end YaraRules
