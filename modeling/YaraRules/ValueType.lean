/-! Types of condition expressions. -/

namespace YaraRules

/-- The type of an expression or an identifier. -/
inductive ValueType where
  /-- Not known until the rule is evaluated; accepted everywhere. -/
  | undefined
  | boolean
  | integer
  | string
  | regexp
  /-- Modules, structures, arrays, dictionaries and functions that are not called. -/
  | object
  | float
deriving DecidableEq, Inhabited, Repr

namespace ValueType

def text : ValueType → String
  | undefined => "undefined"
  | boolean => "boolean"
  | integer => "integer"
  | string => "string"
  | regexp => "regexp"
  | object => "object"
  | float => "float"

def isNumeric : ValueType → Bool
  | integer | float => true
  | _ => false

/-- True if the type can stand where a boolean is expected. -/
def isBooleanCompatible : ValueType → Bool
  | regexp | object => false
  | _ => true

/-- Letter of the type in a mangled function name. -/
def letter : ValueType → Char
  | integer => 'i'
  | float => 'f'
  | boolean => 'b'
  | string => 's'
  | regexp => 'r'
  | object => 'o'
  | undefined => 'u'

/-- Type of an argument by its letter. -/
def ofLetter? : Char → Option ValueType
  | 'i' => some integer
  | 'f' => some float
  | 'b' => some boolean
  | 's' => some string
  | 'r' => some regexp
  | _ => none

end ValueType

end YaraRules
