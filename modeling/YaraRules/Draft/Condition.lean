import YaraRules.Detached
import YaraRules.Draft.Basic
import YaraRules.Expr.Basic
import YaraRules.Expr.Typing
import YaraRules.Regexp.Reader

/-! Drafts of conditions. Names and strings are checked for their form only; what they
refer to shows when the text of the whole file is read again. -/

namespace YaraRules

/-- Words that are expressions of their own. -/
inductive ConditionWord where
  | filesize | entrypoint | them | all | any | none
deriving DecidableEq, Inhabited, Repr

namespace ConditionWord

def kind : ConditionWord → TokenKind
  | filesize => .kwFilesize
  | entrypoint => .kwEntrypoint
  | them => .kwThem
  | all => .kwAll
  | any => .kwAny
  | none => .kwNone

def atom : ConditionWord → AtomKind
  | filesize => .filesize
  | entrypoint => .entrypoint
  | them => .them
  | all => .all
  | any => .any
  | none => .none

def type : ConditionWord → ValueType
  | filesize | entrypoint => .integer
  | _ => .undefined

end ConditionWord

/-- How a condition uses a string. -/
inductive StringUse where
  | reference | wildcard | count | offset | length
deriving DecidableEq, Inhabited, Repr

namespace StringUse

def kind : StringUse → TokenKind
  | reference => .stringName
  | wildcard => .stringWildcard
  | count => .stringCount
  | offset => .stringOffset
  | length => .stringLength

def atom : StringUse → AtomKind
  | reference => .stringRef
  | wildcard => .wildcard
  | count => .count
  | offset => .offset
  | length => .length

def type : StringUse → ValueType
  | reference | wildcard => .boolean
  | _ => .integer

/-- What the token holds for a string; the text of the token has another sigil. -/
def written (use : StringUse) (id : String) : String :=
  match use with
  | wildcard => id ++ "*"
  | _ => id

end StringUse

inductive ConditionDraft where
  | integer (value : Int64)
  | hexInteger (value : UInt64)
  | float (bits : UInt64)
  | boolean (value : Bool)
  | string (value : String)
  | regexp (pattern modifiers : String)
  | name (name : String)
  | word (word : ConditionWord)
  /-- A string by its name with the dollar sign, whatever sigil the use has. -/
  | stringUse (use : StringUse) (id : String)
  /-- `@a[<index>]`, or `!a[<index>]` if `measured` -/
  | indexed (measured : Bool) (id : String) (index : ConditionDraft)
  /-- Parentheses whose content goes on lines of its own if `block`. -/
  | paren (inner : ConditionDraft) (block : Bool)
  | range (low high : ConditionDraft)
  | set (elements : List ConditionDraft)
  | integerFunction (function : String) (arg : ConditionDraft)
  | forIn (quantifier : ConditionDraft) (vars : List String) (iterable body : ConditionDraft)
  | forOf (quantifier set body : ConditionDraft)
  | unary (op : UnaryOp) (operand : ConditionDraft)
  /-- The right operand goes on a new line if `newline`. -/
  | binary (op : BinaryOp) (left right : ConditionDraft) (newline : Bool)
  /-- No terms at all with an operator between them, which cannot be written. -/
  | nothing (op : BinaryOp)
  | field (structure_ : ConditionDraft) (name : String)
  | index (array index : ConditionDraft)
  | call (function : ConditionDraft) (args : List ConditionDraft)
  /-- `<operand> at <offset>` -/
  | located (operand offset : ConditionDraft)
  /-- `<operand> in <range>` -/
  | confined (operand range : ConditionDraft)
  | percent (operand : ConditionDraft)
  | of (quantifier set : ConditionDraft)
deriving Inhabited

namespace ConditionDraft

/-- An integer, which is taken as unsigned if it is too large to be signed. -/
def hexLiteral (value : UInt64) : Literal :=
  let literal :=
    if value.toNat < Literal.signedLimit then Literal.ofInt (Int64.ofNat value.toNat)
    else .ofUInt value
  literal.withFormatted (hexadecimal value.toNat)

def atomOf (kind : TokenKind) (literal : Literal) (type : ValueType) (atom : AtomKind) :
    Emit Expr := do
  return .atom type atom (← Emit.literal kind literal)

def textNow (e : Expr) : Emit String := return e.text (← get)

def checkName (name : String) : Emit Unit :=
  if Lexer.isIdentifier name then pure () else throw (.invalidIdentifier name)

def checkString (id : String) : Emit Unit :=
  if isStringIdentifier id then pure () else throw (.invalidStringIdentifier id)

def isParen : ConditionDraft → Bool
  | paren .. => true
  | _ => false

/-- Terms with the same operator between them, each after the first on a new line if `newlines`. -/
def joined (op : BinaryOp) (newlines : Bool) : List ConditionDraft → ConditionDraft
  | [] => nothing op
  | first :: rest => rest.foldl (fun left right => binary op left right newlines) first

/-- A string or an `of` expression that has no place yet, with a place. -/
def placed (operation : String) (operand : Expr) (keyword : Handle) (place : Expr)
    (ofString : Handle → Option Expr) (ofCount : Handle → Option Expr) : Emit Expr := do
  let refused : Emit Expr := do throw (.invalidOperand operation (← textNow operand))
  match operand with
  | .atom _ .stringRef id => (ofString id).elim refused pure
  | .atom _ .count id => (ofCount id).elim refused pure
  | .of _ quantifier of_ members =>
    return .ofAnchored .boolean quantifier of_ members keyword place
  | _ => refused

/-- Writes an expression in parentheses unless it has them already. -/
def inParens (already : Bool) (e : Emit Expr) : Emit Expr := do
  if already then e
  else
    let opening ← Emit.fixed .openParen
    let inner ← e
    let closing ← Emit.fixed .closeParen
    return .paren inner.type opening inner closing

def emitVars : List String → Emit (List Handle)
  | [] => return []
  | [var] => return [← Emit.written .symbolName var]
  | var :: rest => do
    let token ← Emit.written .symbolName var
    let _ ← Emit.fixed .comma
    return token :: (← emitVars rest)

mutual

/-- Writes the tokens of a condition. -/
def emit : ConditionDraft → Emit Expr
  | integer value => atomOf .integer (.ofInt value) .integer .integer
  | hexInteger value => atomOf .integer (hexLiteral value) .integer .integer
  | float bits => atomOf .float (.ofFloatBits bits) .float .float
  | boolean value => atomOf .boolean (.ofBool value) .boolean .boolean
  | string value => atomOf .string (.ofText value) .string .string
  | regexp pattern modifiers => do
    let text := "/" ++ pattern ++ "/" ++ modifiers
    match Regexp.read text with
    | .ok value => return .regexp .regexp (← Emit.written .regexp text) value
    | .error fault => throw (.invalidRegexp text fault.message)
  | name text => do
    checkName text
    atomOf .symbolName (.ofWritten text) .undefined .name
  | word w => return .atom w.type w.atom (← Emit.fixed w.kind)
  | stringUse use id => do
    checkString id
    atomOf use.kind (.ofWritten (use.written id)) use.type use.atom
  | indexed measured id i => do
    checkString id
    let token ← Emit.written (if measured then .stringLength else .stringOffset) id
    let opening ← Emit.fixed .openBracket
    let i ← i.emit
    let closing ← Emit.fixed .closeBracket
    return .stringIndexed .integer measured token opening i closing
  | paren inner block => do
    let opening ← if block then Emit.blockOpening .openParen else Emit.fixed .openParen
    if block then Emit.newline
    let inner ← inner.emit
    if block then Emit.newline
    let closing ← Emit.fixed .closeParen
    return .paren inner.type opening inner closing
  | range low high => do
    let opening ← Emit.fixed .openParen
    let low ← low.emit
    let dots ← Emit.fixed .doubleDot
    let high ← high.emit
    let closing ← Emit.fixed .closeParen
    return .range .integer opening low dots high closing
  | set elements => do
    let opening ← Emit.fixed .openParen
    let elements ← emitAll false elements
    let closing ← Emit.fixed .closeParen
    return .set .undefined opening elements closing
  | integerFunction function arg => do
    if !integerFunctionNames.contains function then throw (.invalidIdentifier function)
    let function ← Emit.written .integerFunction function
    let opening ← Emit.fixed .openParen
    let arg ← arg.emit
    let closing ← Emit.fixed .closeParen
    return .integerFunction .integer function opening arg closing
  | forIn quantifier vars iterable body => do
    vars.forM checkName
    let for_ ← Emit.fixed .kwFor
    let quantifier ← quantifier.emit
    let vars ← emitVars vars
    let in_ ← Emit.fixed .kwIn
    let iterable ← iterable.emit
    let colon ← Emit.fixed .colon
    let body ← inParens body.isParen body.emit
    return .forIn .boolean for_ quantifier vars in_ iterable colon body
  | forOf quantifier members body => do
    let for_ ← Emit.fixed .kwFor
    let quantifier ← quantifier.emit
    let of_ ← Emit.fixed .kwOf
    let members ← members.emit
    let colon ← Emit.fixed .colon
    let body ← inParens body.isParen body.emit
    return .forOf .boolean for_ quantifier of_ members colon body
  | unary op operand => do
    let token ← Emit.fixed op.kind
    let operand ← operand.emit
    return .unary (op.result operand.type) op token operand
  | binary op left right newline => do
    let left ← left.emit
    let token ← Emit.fixed op.kind
    if newline then Emit.newline
    let right ← right.emit
    return .binary (op.result left.type right.type) op left token right
  | nothing op => throw (.invalidOperand (op.kind.fixedText?.getD "?") "")
  | field structure_ text => do
    checkName text
    let structure_ ← structure_.emit
    let dot ← Emit.fixed .dot
    let member ← Emit.written .symbolName text
    return .field .undefined structure_ dot member
  | index array i => do
    let array ← array.emit
    let opening ← Emit.fixed .openBracket
    let i ← i.emit
    let closing ← Emit.fixed .closeBracket
    return .index .undefined array opening i closing
  | call function args => do
    let function ← function.emit
    let opening ← Emit.fixed .openParen
    let args ← emitAll false args
    let closing ← Emit.fixed .closeParen
    return .call .undefined function opening args closing
  | located operand offset => do
    let operand ← operand.emit
    let at_ ← Emit.fixed .kwAt
    let offset ← offset.emit
    placed "at" operand at_ offset (fun id => some (.stringAt .boolean id at_ offset))
      (fun _ => none)
  | confined operand bounds => do
    let operand ← operand.emit
    let in_ ← Emit.fixed .kwIn
    let bounds ← bounds.emit
    match bounds with
    | .range .. =>
      placed "in" operand in_ bounds (fun id => some (.stringIn .boolean false id in_ bounds))
        (fun id => some (.stringIn .integer true id in_ bounds))
    | _ => throw (.invalidOperand "in" (← textNow operand))
  | percent operand => do
    let operand ← operand.emit
    let token ← Emit.fixed .percent
    return .percentage .integer operand token
  | of quantifier members => do
    let quantifier ← quantifier.emit
    let of_ ← Emit.fixed .kwOf
    let members ← members.emit
    return .of .boolean quantifier of_ members

/-- Writes expressions with commas between them, and before the first if `comma`. -/
def emitAll (comma : Bool) : List ConditionDraft → Emit (List Expr)
  | [] => return []
  | e :: rest => do
    if comma then let _ ← Emit.fixed .comma
    let first ← e.emit
    return first :: (← emitAll true rest)

end

/-- The condition with tokens of its own. -/
def build (id : ChainId) (draft : ConditionDraft) : Except DraftError (Detached Expr) := do
  let (e, tokens) ← draft.emit.run (.empty id)
  return ⟨tokens, e⟩

end ConditionDraft

end YaraRules
