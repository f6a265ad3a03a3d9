import YaraRules.Expr.Operator

/-! Types of operands and results. An expression of undefined type is accepted
everywhere, since its type is known only when a file is scanned. -/

namespace YaraRules

/-- What an operand may be. -/
inductive OperandClass where
  /-- Anything that can be true or false. -/
  | truth
  | boolean
  | integer
  | number
  | string
  | regexp
  /-- Anything that can be compared. -/
  | comparable
deriving DecidableEq, Inhabited, Repr

namespace OperandClass

def types : OperandClass → List ValueType
  | truth => [.boolean, .integer, .float, .string]
  | boolean => [.boolean]
  | integer => [.integer]
  | number => [.integer, .float]
  | string => [.string]
  | regexp => [.regexp]
  | comparable => [.integer, .float, .string, .boolean]

def accepts (c : OperandClass) (type : ValueType) : Bool :=
  type == .undefined || c.types.contains type

/-- The class as it is named in messages. -/
def text : OperandClass → String
  | truth => "boolean"
  | c => " or ".intercalate (c.types.map ValueType.text)

end OperandClass

namespace UnaryOp

/-- What may be negated and the like; anything may be tested for being defined. -/
def operand? : UnaryOp → Option OperandClass
  | not => some .truth
  | minus => some .number
  | bitNot => some .integer
  | defined => none

def result (op : UnaryOp) (operand : ValueType) : ValueType :=
  match op with
  | not | defined => .boolean
  | minus => operand
  | bitNot => .integer

end UnaryOp

namespace BinaryOp

def isComparison : BinaryOp → Bool
  | lt | gt | le | ge | eq | ne => true
  | _ => false

/-- Classes of the two operands, of which the second may depend on the type of the first. -/
def operands (op : BinaryOp) (left : ValueType) : OperandClass × OperandClass :=
  match op with
  | and | or => (.truth, .truth)
  | lt | gt | le | ge | eq | ne =>
    (.comparable,
      match left with
      | .string => .string
      | .boolean => .boolean
      | _ => .number)
  | contains | icontains | startsWith | istartsWith | endsWith | iendsWith | iequals =>
    (.string, .string)
  | .matches => (.string, .regexp)
  | plus | minus | multiply | divide => (.number, .number)
  | modulo | bitXor | bitAnd | bitOr | shiftLeft | shiftRight => (.integer, .integer)

/-- Arithmetic gives a float if one of its operands is a float. -/
def result (op : BinaryOp) (left right : ValueType) : ValueType :=
  match op with
  | plus | minus | multiply | divide =>
    if left == .float || right == .float then .float else .integer
  | modulo | bitXor | bitAnd | bitOr | shiftLeft | shiftRight => .integer
  | _ => .boolean

end BinaryOp

end YaraRules
