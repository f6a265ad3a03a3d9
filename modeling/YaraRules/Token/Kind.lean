/-! Kinds of tokens. The lexer gives most of them; the parser refines a kind once
it knows the role of the token, so that an identifier becomes a rule name, a tag,
a key of the meta section and so on. -/

namespace YaraRules

inductive TokenKind where
  -- Line breaks and comments, which the grammar passes over.
  | newLine | blockComment | lineComment
  -- Directives, rule headers and sections.
  | kwImport | kwInclude | kwRule | kwPrivate | kwGlobal | ruleName | tag | colon | openBrace
  | closeBrace | ruleBegin | ruleEnd | kwMeta | kwStrings | kwCondition | metaKey | assign
  -- Literals.
  | string | integer | float | boolean | regexp
  -- String definitions and their modifiers.
  | stringDefinition | hexStart | hexEnd | hexByte | hexAltOpen | hexAltClose | hexAltOr
  | hexJumpOpen | hexJumpClose | dash | kwAscii | kwWide | kwNocase | kwFullword
  | kwPrivateString | kwXor | kwBase64 | kwBase64Wide
  -- References and punctuation of conditions.
  | stringName | stringWildcard | stringCount | stringOffset | stringLength | identifier
  | symbolName | integerFunction | dot | doubleDot | comma | openParen | closeParen | openBracket
  | closeBracket
  -- Operators and words of conditions.
  | kwAnd | kwOr | kwNot | kwDefined | lt | gt | le | ge | eq | ne | kwContains | kwIContains
  | kwStartsWith | kwIStartsWith | kwEndsWith | kwIEndsWith | kwIEquals | kwMatches | plus
  | minus | unaryMinus | multiply | divide | modulo | percent | bitNot | bitAnd | bitOr | bitXor
  | shiftLeft | shiftRight | kwFor | kwOf | kwIn | kwAt | kwAll | kwAny | kwNone | kwThem
  | kwFilesize | kwEntrypoint
  -- Text that is no token.
  | unknown
deriving DecidableEq, Inhabited, Repr

namespace TokenKind

def all : List TokenKind :=
  [.newLine, .blockComment, .lineComment, .kwImport, .kwInclude, .kwRule, .kwPrivate, .kwGlobal,
   .ruleName, .tag, .colon, .openBrace, .closeBrace, .ruleBegin, .ruleEnd, .kwMeta, .kwStrings,
   .kwCondition, .metaKey, .assign, .string, .integer, .float, .boolean, .regexp,
   .stringDefinition, .hexStart, .hexEnd, .hexByte, .hexAltOpen, .hexAltClose, .hexAltOr,
   .hexJumpOpen, .hexJumpClose, .dash, .kwAscii, .kwWide, .kwNocase, .kwFullword,
   .kwPrivateString, .kwXor, .kwBase64, .kwBase64Wide, .stringName, .stringWildcard, .stringCount,
   .stringOffset, .stringLength, .identifier, .symbolName, .integerFunction, .dot, .doubleDot,
   .comma, .openParen, .closeParen, .openBracket, .closeBracket, .kwAnd, .kwOr, .kwNot,
   .kwDefined, .lt, .gt, .le, .ge, .eq, .ne, .kwContains, .kwIContains, .kwStartsWith,
   .kwIStartsWith, .kwEndsWith, .kwIEndsWith, .kwIEquals, .kwMatches, .plus, .minus, .unaryMinus,
   .multiply, .divide, .modulo, .percent, .bitNot, .bitAnd, .bitOr, .bitXor, .shiftLeft,
   .shiftRight, .kwFor, .kwOf, .kwIn, .kwAt, .kwAll, .kwAny, .kwNone, .kwThem, .kwFilesize,
   .kwEntrypoint, .unknown]

/-- Name of the kind itself, for listings of tokens. -/
def label : TokenKind → String
  | newLine => "NewLine"
  | blockComment => "Comment"
  | lineComment => "OneLineComment"
  | kwImport => "Import"
  | kwInclude => "Include"
  | kwRule => "Rule"
  | kwPrivate => "Private"
  | kwGlobal => "Global"
  | ruleName => "RuleName"
  | tag => "Tag"
  | colon => "Colon"
  | openBrace => "LBrace"
  | closeBrace => "RBrace"
  | ruleBegin => "RuleBegin"
  | ruleEnd => "RuleEnd"
  | kwMeta => "Meta"
  | kwStrings => "Strings"
  | kwCondition => "Condition"
  | metaKey => "MetaKey"
  | assign => "Assign"
  | string => "StringLiteral"
  | integer => "IntLiteral"
  | float => "FloatLiteral"
  | boolean => "BoolLiteral"
  | regexp => "Regexp"
  | stringDefinition => "StringIdDef"
  | hexStart => "HexStart"
  | hexEnd => "HexEnd"
  | hexByte => "HexByte"
  | hexAltOpen => "HexAltLeft"
  | hexAltClose => "HexAltRight"
  | hexAltOr => "HexAltOr"
  | hexJumpOpen => "HexJumpLeft"
  | hexJumpClose => "HexJumpRight"
  | dash => "Dash"
  | kwAscii => "Ascii"
  | kwWide => "Wide"
  | kwNocase => "Nocase"
  | kwFullword => "Fullword"
  | kwPrivateString => "PrivateModifier"
  | kwXor => "Xor"
  | kwBase64 => "Base64"
  | kwBase64Wide => "Base64Wide"
  | stringName => "StringId"
  | stringWildcard => "StringIdWildcard"
  | stringCount => "StringCount"
  | stringOffset => "StringOffset"
  | stringLength => "StringLength"
  | identifier => "Ident"
  | symbolName => "Id"
  | integerFunction => "IntFunction"
  | dot => "Dot"
  | doubleDot => "DoubleDot"
  | comma => "Comma"
  | openParen => "LParen"
  | closeParen => "RParen"
  | openBracket => "LSqb"
  | closeBracket => "RSqb"
  | kwAnd => "And"
  | kwOr => "Or"
  | kwNot => "Not"
  | kwDefined => "Defined"
  | lt => "Lt"
  | gt => "Gt"
  | le => "Le"
  | ge => "Ge"
  | eq => "Eq"
  | ne => "Neq"
  | kwContains => "Contains"
  | kwIContains => "IContains"
  | kwStartsWith => "StartsWith"
  | kwIStartsWith => "IStartsWith"
  | kwEndsWith => "EndsWith"
  | kwIEndsWith => "IEndsWith"
  | kwIEquals => "IEquals"
  | kwMatches => "Matches"
  | plus => "Plus"
  | minus => "Minus"
  | unaryMinus => "UnaryMinus"
  | multiply => "Multiply"
  | divide => "Divide"
  | modulo => "Modulo"
  | percent => "Percent"
  | bitNot => "BitwiseNot"
  | bitAnd => "BitwiseAnd"
  | bitOr => "BitwiseOr"
  | bitXor => "BitwiseXor"
  | shiftLeft => "ShiftLeft"
  | shiftRight => "ShiftRight"
  | kwFor => "For"
  | kwOf => "Of"
  | kwIn => "In"
  | kwAt => "At"
  | kwAll => "All"
  | kwAny => "Any"
  | kwNone => "None"
  | kwThem => "Them"
  | kwFilesize => "Filesize"
  | kwEntrypoint => "Entrypoint"
  | unknown => "Unknown"

def ofLabel? (label : String) : Option TokenKind := all.find? (·.label == label)

/-- Line breaks and comments. -/
def isTrivia : TokenKind → Bool
  | newLine | blockComment | lineComment => true
  | _ => false

def isComment : TokenKind → Bool
  | blockComment | lineComment => true
  | _ => false

/-- Brackets whose contents may be laid out on lines of their own. -/
def isOpening : TokenKind → Bool
  | openParen | hexStart | hexAltOpen | openBracket => true
  | _ => false

def isClosing : TokenKind → Bool
  | closeParen | hexEnd | hexAltClose | closeBracket => true
  | _ => false

/-- Text of the kinds that are always written the same way. -/
def fixedText? : TokenKind → Option String
  | kwImport => some "import"
  | kwInclude => some "include"
  | kwRule => some "rule"
  | kwPrivate | kwPrivateString => some "private"
  | kwGlobal => some "global"
  | colon => some ":"
  | openBrace | ruleBegin | hexStart => some "\x7b"
  | closeBrace | ruleEnd | hexEnd => some "\x7d"
  | kwMeta => some "meta"
  | kwStrings => some "strings"
  | kwCondition => some "condition"
  | assign => some "="
  | hexAltOpen | openParen => some "("
  | hexAltClose | closeParen => some ")"
  | hexAltOr | bitOr => some "|"
  | hexJumpOpen | openBracket => some "["
  | hexJumpClose | closeBracket => some "]"
  | dash | minus | unaryMinus => some "-"
  | kwAscii => some "ascii"
  | kwWide => some "wide"
  | kwNocase => some "nocase"
  | kwFullword => some "fullword"
  | kwXor => some "xor"
  | kwBase64 => some "base64"
  | kwBase64Wide => some "base64wide"
  | dot => some "."
  | doubleDot => some ".."
  | comma => some ","
  | kwAnd => some "and"
  | kwOr => some "or"
  | kwNot => some "not"
  | kwDefined => some "defined"
  | lt => some "<"
  | gt => some ">"
  | le => some "<="
  | ge => some ">="
  | eq => some "=="
  | ne => some "!="
  | kwContains => some "contains"
  | kwIContains => some "icontains"
  | kwStartsWith => some "startswith"
  | kwIStartsWith => some "istartswith"
  | kwEndsWith => some "endswith"
  | kwIEndsWith => some "iendswith"
  | kwIEquals => some "iequals"
  | kwMatches => some "matches"
  | plus => some "+"
  | multiply => some "*"
  | divide => some "\\"
  | modulo | percent => some "%"
  | bitNot => some "~"
  | bitAnd => some "&"
  | bitXor => some "^"
  | shiftLeft => some "<<"
  | shiftRight => some ">>"
  | kwFor => some "for"
  | kwOf => some "of"
  | kwIn => some "in"
  | kwAt => some "at"
  | kwAll => some "all"
  | kwAny => some "any"
  | kwNone => some "none"
  | kwThem => some "them"
  | kwFilesize => some "filesize"
  | kwEntrypoint => some "entrypoint"
  | newLine => some "\n"
  | _ => none

/-- How messages name the kind: a description, or its text in single quotes. -/
def describe : TokenKind → String
  | newLine => "newline"
  | blockComment | lineComment => "comment"
  | ruleName | tag | metaKey | identifier | symbolName | integerFunction => "identifier"
  | string => "string literal"
  | integer => "integer"
  | float => "float"
  | boolean => "boolean"
  | regexp => "regular expression"
  | stringDefinition | stringName => "string identifier"
  | stringWildcard => "string identifier wildcard"
  | stringCount => "string count"
  | stringOffset => "string offset"
  | stringLength => "string length"
  | hexByte => "hex byte"
  | unknown => "unknown token"
  | other => "'" ++ other.fixedText?.getD "?" ++ "'"

end TokenKind

end YaraRules
