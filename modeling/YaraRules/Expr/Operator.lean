import YaraRules.Token.Kind
import YaraRules.ValueType

/-! Operators and single-token expressions of conditions. -/

namespace YaraRules

inductive UnaryOp where
  | not | minus | bitNot | defined
deriving DecidableEq, Inhabited, Repr

inductive BinaryOp where
  | and | or | lt | gt | le | ge | eq | ne
  | contains | icontains | startsWith | istartsWith | endsWith | iendsWith | iequals | matches
  | plus | minus | multiply | divide | modulo
  | bitXor | bitAnd | bitOr | shiftLeft | shiftRight
deriving DecidableEq, Inhabited, Repr

/-- Expressions that consist of one token. -/
inductive AtomKind where
  | boolean | string | integer | float | filesize | entrypoint
  | all | any | none | them
  /-- A rule, a module, a loop variable or a global. -/
  | name
  | stringRef | wildcard | count | offset | length
deriving DecidableEq, Inhabited, Repr

/-- Functions that read an integer from the scanned data. -/
def integerFunctionNames : List String :=
  ["int8", "int16", "int32", "int8be", "int16be", "int32be", "uint8", "uint16", "uint32",
   "uint8be", "uint16be", "uint32be"]

namespace UnaryOp

def label : UnaryOp → String
  | not => "Not"
  | minus => "UnaryMinus"
  | bitNot => "BitwiseNot"
  | defined => "Defined"

/-- Kind of the operator's token. -/
def kind : UnaryOp → TokenKind
  | not => .kwNot
  | minus => .unaryMinus
  | bitNot => .bitNot
  | defined => .kwDefined

/-- Words are written with a blank before the operand. -/
def isWord : UnaryOp → Bool
  | not | defined => true
  | _ => false

end UnaryOp

namespace BinaryOp

def all : List BinaryOp :=
  [.and, .or, .lt, .gt, .le, .ge, .eq, .ne, .contains, .icontains, .startsWith, .istartsWith,
   .endsWith, .iendsWith, .iequals, .matches, .plus, .minus, .multiply, .divide, .modulo, .bitXor,
   .bitAnd, .bitOr, .shiftLeft, .shiftRight]

/-- Kind of the operator's token. -/
def kind : BinaryOp → TokenKind
  | and => .kwAnd
  | or => .kwOr
  | lt => .lt
  | gt => .gt
  | le => .le
  | ge => .ge
  | eq => .eq
  | ne => .ne
  | contains => .kwContains
  | icontains => .kwIContains
  | startsWith => .kwStartsWith
  | istartsWith => .kwIStartsWith
  | endsWith => .kwEndsWith
  | iendsWith => .kwIEndsWith
  | iequals => .kwIEquals
  | .matches => .kwMatches
  | plus => .plus
  | minus => .minus
  | multiply => .multiply
  | divide => .divide
  | modulo => .modulo
  | bitXor => .bitXor
  | bitAnd => .bitAnd
  | bitOr => .bitOr
  | shiftLeft => .shiftLeft
  | shiftRight => .shiftRight

/-- The binary operator that a token of this kind stands for. -/
def ofKind? (kind : TokenKind) : Option BinaryOp := all.find? (·.kind == kind)

def label (op : BinaryOp) : String := op.kind.label

end BinaryOp

namespace AtomKind

def label : AtomKind → String
  | boolean => "BoolLiteral"
  | string => "StringLiteral"
  | integer => "IntLiteral"
  | float => "FloatLiteral"
  | filesize => "Filesize"
  | entrypoint => "Entrypoint"
  | all => "All"
  | any => "Any"
  | none => "None"
  | them => "Them"
  | name => "Id"
  | stringRef => "StringRef"
  | wildcard => "StringWildcard"
  | count => "StringCount"
  | offset => "StringOffset"
  | length => "StringLength"

end AtomKind

end YaraRules
