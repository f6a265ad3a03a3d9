import YaraRules.Expr.Typing
import YaraRules.Grammar.Basic

/-! The grammar of conditions. Each level of the grammar reads the expressions that
bind at least as tightly as its operators. A rule of the grammar is given a
reader for the expressions inside it, so no rule refers to itself; the levels
are tied together at the end. -/

namespace YaraRules.Grammar

/-- Levels of the grammar, the loosest first. -/
inductive Level where
  | disjunction
  | conjunction
  | negation
  /-- `any of them`, loops and the like. -/
  | quantified
  | equality
  | relation
  | bitOr
  | bitXor
  | bitAnd
  | shift
  | sum
  | product
  | sign
  /-- Fields, elements and calls. -/
  | access
deriving DecidableEq, Inhabited, Repr

namespace Level

/-- The level of the operands. -/
def tighter : Level → Level
  | disjunction => conjunction
  | conjunction => negation
  | negation => quantified
  | quantified => equality
  | equality => relation
  | relation => bitOr
  | bitOr => bitXor
  | bitXor => bitAnd
  | bitAnd => shift
  | shift => sum
  | sum => product
  | product => sign
  | sign => access
  | access => access

def ofOperator : BinaryOp → Level
  | .or => disjunction
  | .and => conjunction
  | .eq | .ne | .contains | .icontains | .startsWith | .istartsWith | .endsWith | .iendsWith
  | .iequals | .matches => equality
  | .lt | .gt | .le | .ge => relation
  | .bitOr => bitOr
  | .bitXor => bitXor
  | .bitAnd => bitAnd
  | .shiftLeft | .shiftRight => shift
  | .plus | .minus => sum
  | .multiply | .divide | .modulo => product

/-- Number of levels. -/
def count : Nat := 14

end Level

/-- A reader for the expressions of each level. -/
abbrev Readers := Level → Parse Expr

/-- The side of an operator, as messages name it. -/
inductive Side where
  | left
  | right
deriving DecidableEq, Inhabited

def Side.text : Side → String
  | left => "left-hand side"
  | right => "right-hand side"

/-- Ends the reading unless an operand is of the class that its operator asks for. -/
def checkOperand (operator : Handle) (operand : Expr) (expected : OperandClass) (side : Side) :
    Parse Unit := do
  if expected.accepts operand.type then return ()
  else fail operator (.invalidOperand (← textOf operator) expected.text side.text)

def binary (op : BinaryOp) (left : Expr) (token : Handle) (right : Expr) : Parse Expr := do
  let (leftClass, rightClass) := op.operands left.type
  checkOperand token left leftClass .left
  checkOperand token right rightClass .right
  return .binary (op.result left.type right.type) op left token right

def unary (op : UnaryOp) (token : Handle) (operand : Expr) : Parse Expr := do
  match op.operand? with
  | some expected => checkOperand token operand expected .right
  | none => pure ()
  return .unary (op.result operand.type) op token operand

/-- The symbol that an expression refers to. Names and fields have one, and so have
elements of arrays of structures. -/
def symbolIn? (tokens : TokenStream) : Expr → Option Symbol
  | .atom _ .name token => (tokens.get? token).bind (·.literal.asSymbol?)
  | .field _ _ _ member => (tokens.get? member).bind (·.literal.asSymbol?)
  | .index _ array _ _ _ => (symbolIn? tokens array).bind Symbol.element?
  | _ => none

def symbolOf? (e : Expr) : Parse (Option Symbol) := return symbolIn? (← tokens) e

/-! ### Names and strings -/

/-- The loop variable with the given name, in the innermost loop that has it. -/
def variable_? (scopes : List SymbolTable) (name : String) : Option Symbol :=
  scopes.findSome? (·.lookup? name)

/-- The module or global with the given name. -/
def global? (s : State) (name : String) : Option Symbol :=
  match s.imports.find? (·.moduleName == name) with
  | some i => some i.imported.content
  | none =>
    if s.settings.features.virusTotal then virusTotalGlobals.find? (·.name == name) else none

/-- True if a name stands for something already. -/
def isTaken (s : State) (name : String) : Bool :=
  (variable_? s.scopes name).isSome || (s.ruleNames.lookup name).isSome || (global? s name).isSome

/-- Resolves a name that no dot precedes: a loop variable, a rule, a module or a
global, in this order. The name of a rule in the same tree of tokens becomes an
alias of the rule's own. -/
def name (token : Handle) : Parse Expr := do
  let text ← textOf token
  refine token .symbolName
  let s ← get
  match variable_? s.scopes text with
  | some symbol =>
    setLiteral token (.ofSymbol symbol)
    return .atom symbol.type .name token
  | none =>
    match s.ruleNames.lookup text with
    | some target =>
      if (s.source.tokens.get? target).isSome then
        setLiteral token (s.source.tokens.aliasOf target)
      return .atom .boolean .name token
    | none =>
      match global? s text with
      | some symbol =>
        setLiteral token (.ofSymbol symbol)
        return .atom symbol.type .name token
      | none => fail token (.unknownIdentifier text)

/-- Checks a reference to a string and makes it an alias of the definition. `#a`,
`@a` and `!a` refer to `$a`; a bare sigil refers to the string of a loop. -/
def stringReference (token : Handle) : Parse Unit := do
  let text ← textOf token
  let id := "$" ++ String.ofList (text.toList.drop 1)
  let s ← get
  if id == "$" then
    if s.stringLoops == 0 then fail token (.anonymousOutsideLoop text)
  else
    match s.strings.get? id with
    | some string => setLiteral token (s.source.tokens.aliasOf string.id)
    | none => fail token (.undefinedString id)

/-! ### Ranges, sets and parentheses -/

def integerIn? (tokens : TokenStream) : Expr → Option Int64
  | .atom _ .integer token => (tokens.get? token).bind (·.literal.asInt?)
  | _ => none

/-- A range whose bounds are in order, if both are written as numbers. -/
def rangeOf (opening : Handle) (low : Expr) (dots : Handle) (high : Expr) (closing : Handle) :
    Parse Expr := do
  checkOperand dots low .integer .left
  checkOperand dots high .integer .right
  let tokens ← tokens
  match integerIn? tokens low, integerIn? tokens high with
  | some l, some h => if h < l then fail opening (.invalidRange l h)
  | _, _ => pure ()
  return .range .integer opening low dots high closing

def range (self : Readers) : Parse Expr := do
  let opening ← expect .openParen
  let low ← self .bitOr
  let dots ← expect .doubleDot
  let high ← self .bitOr
  let closing ← expect .closeParen
  rangeOf opening low dots high closing

def parenthesized (self : Readers) : Parse Expr := do
  let opening ← expect .openParen
  breakAfter opening (endsLine (← tokens) opening)
  let inner ← self .disjunction
  let closing ← expect .closeParen
  return .paren inner.type opening inner closing

def withoutStars (pattern : String) : String :=
  String.ofList (pattern.toList.reverse.dropWhile (· == '*')).reverse

/-- A string, a wildcard that some string matches, or the name of a rule. -/
def setElement : Parse Expr := do
  match ← peek? with
  | some .stringName =>
    let token ← advance
    stringReference token
    return .atom .boolean .stringRef token
  | some .stringWildcard =>
    let token ← advance
    let pattern ← textOf token
    if ((← get).strings.findByStart (withoutStars pattern)).isEmpty then
      fail token (.unmatchedWildcard pattern)
    return .atom .boolean .wildcard token
  | some .identifier => name (← advance)
  | _ => unexpected "string identifier"

/-- `them` or strings in parentheses. -/
def stringSet : Parse Expr := do
  match ← accept? .kwThem with
  | some token =>
    if (← get).strings.isEmpty then fail token .themWithoutStrings
    return .atom .undefined .them token
  | none =>
    let opening ← expect .openParen
    let elements ← separated .comma setElement (← remaining)
    let closing ← expect .closeParen
    return .set .undefined opening elements closing

/-! ### Quantifiers and loops -/

def percentage (operand : Expr) : Parse Expr := do
  let percent ← expect .modulo
  refine percent .percent
  checkOperand percent operand .integer .left
  return .percentage .integer operand percent

/-- `all`, `any`, `none`, a number or a percentage. -/
def quantifier (self : Readers) : Parse Expr := do
  match ← peek? with
  | some .kwAll => return .atom .integer .all (← advance)
  | some .kwAny => return .atom .integer .any (← advance)
  | some .kwNone => return .atom .integer .none (← advance)
  | _ =>
    let e ← self .sum
    if (← peek?) == some .modulo then percentage e
    else
      match ← peekHandle? 0 with
      | some next => checkOperand next e .integer .left
      | none => pure ()
      return e

/-- What follows the quantifier in `<quantifier> of <set>`. -/
def ofRest (self : Readers) (quantifier : Expr) : Parse Expr := do
  let of_ ← expect .kwOf
  let set ← stringSet
  match ← peek? with
  | some .kwAt =>
    let keyword ← advance
    let anchor ← self .bitOr
    checkOperand keyword anchor .integer .right
    return .ofAnchored .boolean quantifier of_ set keyword anchor
  | some .kwIn =>
    let keyword ← advance
    let anchor ← range self
    return .ofAnchored .boolean quantifier of_ set keyword anchor
  | _ => return .of .boolean quantifier of_ set

/-- What a loop goes through: a range, a set of integers or strings, an array or a dictionary. -/
def iterable (self : Readers) : Parse Expr := do
  if (← peek?) == some .openParen then
    let opening ← advance
    let first ← self .bitOr
    match ← accept? .doubleDot with
    | some dots =>
      let high ← self .bitOr
      let closing ← expect .closeParen
      rangeOf opening first dots high closing
    | none =>
      let others ←
        match ← accept? .comma with
        | some _ => separated .comma (self .bitOr) (← remaining)
        | none => pure []
      let closing ← expect .closeParen
      let expected := if first.type == .string then OperandClass.string else .integer
      (first :: others).forM fun element => checkOperand opening element expected .right
      return .set first.type opening (first :: others) closing
  else
    let e ← self .access
    if (← symbolOf? e).any fun symbol => symbol.isArray || symbol.isDictionary then return e
    else fail e.first (.invalidAccess (e.text (← tokens)) "an array or dictionary")

/-- The variable that holds the elements of an array or a dictionary. -/
def elementVariable (container : Symbol) (name : String) : Symbol :=
  match container.element? with
  | some element => element.renamed name
  | none => .value name (container.elementType?.getD .undefined)

/-- Variables for what a loop goes through, one for each given name as far as there
are any, and the number of names that it takes. -/
def loopVariables (container : Option Symbol) (iterable : Expr) (names : List String) :
    Nat × List Symbol :=
  match container with
  | some symbol =>
    if symbol.isDictionary then
      (2, (names.take 1).map (Symbol.value · .string) ++
        ((names.drop 1).take 1).map (elementVariable symbol))
    else (1, (names.take 1).map (elementVariable symbol))
  | none =>
    let type :=
      match iterable with
      | .set type _ _ _ => type
      | _ => .integer
    (1, (names.take 1).map (Symbol.value · type))

/-- Turns the names of a loop into variables, none of which may hide another name. -/
def declareVariables : List (Handle × Symbol) → SymbolTable → Parse SymbolTable
  | [], scope => return scope
  | (token, symbol) :: rest, scope => do
    let text ← textOf token
    if scope.contains text || isTaken (← get) text then fail token (.redefinedIdentifier text)
    refine token .symbolName
    setLiteral token (.ofSymbol symbol)
    declareVariables rest (scope.insert symbol)

def variableCount (n : Nat) : String := toString n ++ " loop variables"

/-- What follows the quantifier in `for <quantifier> <variables> in <iterable> : ( <body> )`. -/
def loopIn (self : Readers) (for_ : Handle) (quantifier : Expr) : Parse Expr := do
  let vars ← separated .comma (expect .identifier) (← remaining)
  let in_ ← expect .kwIn
  let iterable ← iterable self
  let names ← vars.mapM textOf
  let (expected, symbols) := loopVariables (← symbolOf? iterable) iterable names
  if vars.length != expected then
    fail (vars.headD for_)
      (.syntaxError (variableCount vars.length) (variableCount expected))
  let scope ← declareVariables (vars.zip symbols) {}
  let colon ← expect .colon
  let outer := (← get).scopes
  modify fun s => { s with scopes := scope :: s.scopes }
  let body ← parenthesized self
  modify fun s => { s with scopes := outer }
  return .forIn .boolean for_ quantifier vars in_ iterable colon body

/-- What follows the quantifier in `for <quantifier> of <set> : ( <body> )`. -/
def loopOf (self : Readers) (for_ : Handle) (quantifier : Expr) : Parse Expr := do
  let of_ ← expect .kwOf
  let set ← stringSet
  let colon ← expect .colon
  modify fun s => { s with stringLoops := s.stringLoops + 1 }
  let body ← parenthesized self
  modify fun s => { s with stringLoops := s.stringLoops - 1 }
  return .forOf .boolean for_ quantifier of_ set colon body

def loop (self : Readers) : Parse Expr := do
  let for_ ← expect .kwFor
  let quantifier ← quantifier self
  if (← peek?) == some .kwOf then loopOf self for_ quantifier else loopIn self for_ quantifier

/-! ### Single terms -/

/-- `$a`, `$a at <offset>` and `$a in <range>`. -/
def stringTerm (self : Readers) : Parse Expr := do
  let id ← expect .stringName
  stringReference id
  match ← peek? with
  | some .kwAt =>
    let at_ ← advance
    let offset ← self .bitOr
    checkOperand at_ offset .integer .right
    return .stringAt .boolean id at_ offset
  | some .kwIn =>
    let in_ ← advance
    return .stringIn .boolean false id in_ (← range self)
  | _ => return .atom .boolean .stringRef id

/-- `#a` and `#a in <range>`. -/
def countTerm (self : Readers) : Parse Expr := do
  let id ← expect .stringCount
  stringReference id
  match ← accept? .kwIn with
  | some in_ => return .stringIn .integer true id in_ (← range self)
  | none => return .atom .integer .count id

/-- `@a` and `@a[<index>]`, or `!a` and `!a[<index>]` if `measured`. -/
def indexedTerm (self : Readers) (measured : Bool) : Parse Expr := do
  let id ← expect (if measured then .stringLength else .stringOffset)
  stringReference id
  match ← accept? .openBracket with
  | some opening =>
    let index ← self .bitOr
    checkOperand opening index .integer .right
    let closing ← expect .closeBracket
    return .stringIndexed .integer measured id opening index closing
  | none => return .atom .integer (if measured then .length else .offset) id

def integerFunction (self : Readers) (function : Handle) : Parse Expr := do
  refine function .integerFunction
  let opening ← expect .openParen
  let arg ← self .bitOr
  checkOperand opening arg .integer .right
  let closing ← expect .closeParen
  return .integerFunction .integer function opening arg closing

def term (self : Readers) : Parse Expr := do
  match ← peek? with
  | some .boolean => return .atom .boolean .boolean (← advance)
  | some .integer => return .atom .integer .integer (← advance)
  | some .float => return .atom .float .float (← advance)
  | some .kwFilesize => return .atom .integer .filesize (← advance)
  | some .kwEntrypoint => return .atom .integer .entrypoint (← advance)
  | some .string =>
    let token ← advance
    checkEscapes token
    return .atom .string .string token
  | some .regexp =>
    let token ← advance
    return .regexp .regexp token (← readRegexp token)
  | some .stringName => stringTerm self
  | some .stringCount => countTerm self
  | some .stringOffset => indexedTerm self false
  | some .stringLength => indexedTerm self true
  | some .openParen => parenthesized self
  | some .identifier =>
    let token ← advance
    if integerFunctionNames.contains (← textOf token) && (← peek?) == some .openParen then
      integerFunction self token
    else name token
  | _ => unexpected "expression"

/-! ### Fields, elements and calls -/

def fieldOf (structure_ : Expr) : Parse Expr := do
  let dot ← expect .dot
  let member ← expect .identifier
  match ← symbolOf? structure_ with
  | some parent =>
    if parent.isStructure then
      let text ← textOf member
      match parent.attribute? text with
      | some symbol =>
        refine member .symbolName
        setLiteral member (.ofSymbol symbol)
        return .field symbol.type structure_ dot member
      | none => fail member (.unknownIdentifier text)
    else fail dot (.invalidAccess (structure_.text (← tokens)) "a structure")
  | none => fail dot (.invalidAccess (structure_.text (← tokens)) "a structure")

def elementOf (self : Readers) (array : Expr) : Parse Expr := do
  let opening ← expect .openBracket
  let symbol ← symbolOf? array
  let (expected, container) ←
    if symbol.any Symbol.isArray then pure (OperandClass.integer, "an array")
    else if symbol.any Symbol.isDictionary then pure (OperandClass.string, "a dictionary")
    else fail opening (.invalidAccess (array.text (← tokens)) "an array or dictionary")
  let index ← self .disjunction
  if !expected.accepts index.type then
    let tokens ← tokens
    fail opening (.invalidAccess (array.text tokens ++ "[" ++ index.text tokens ++ "]")
      ("a valid index for " ++ container))
  let closing ← expect .closeBracket
  return .index ((symbol.bind Symbol.elementType?).getD .undefined) array opening index closing

/-- The arguments of a call, up to the closing parenthesis. -/
def arguments (self : Readers) : Parse (List Expr) := do
  if (← peek?) == some .closeParen then return []
  else separated .comma (self .disjunction) (← remaining)

/-- The first overload that takes the arguments gives the type of the call. -/
def callOf (self : Readers) (function : Expr) : Parse Expr := do
  let opening ← expect .openParen
  let args ← arguments self
  let closing ← expect .closeParen
  let types := args.map Expr.type
  let overloads := ((← symbolOf? function).map Symbol.overloads).getD []
  match overloads.find? (·.accepts types) with
  | some signature => return .call signature.result function opening args closing
  | none =>
    fail opening (.wrongArguments (function.text (← tokens))
      ("(" ++ ", ".intercalate (types.map ValueType.text) ++ ")"))

/-- Any number of fields, elements and calls after a term. -/
def accesses (self : Readers) : Nat → Expr → Parse Expr
  | 0, e => return e
  | bound + 1, e => do
    match ← peek? with
    | some .dot => accesses self bound (← fieldOf e)
    | some .openBracket => accesses self bound (← elementOf self e)
    | some .openParen =>
      if (← symbolOf? e).any Symbol.isFunction then accesses self bound (← callOf self e)
      else return e
    | _ => return e

/-! ### Levels -/

/-- The next token as an operator of a level. A percent sign before `of` is none. -/
def operator? (level : Level) : Parse (Option BinaryOp) := do
  match (← peek?).bind BinaryOp.ofKind? with
  | some op =>
    if Level.ofOperator op != level then return none
    else if op == .modulo && (← peekAt? 1) == some .kwOf then return none
    else return some op
  | none => return none

/-- Any number of operators of a level with their right operands; they group to the left. -/
def operations (self : Readers) (level : Level) : Nat → Expr → Parse Expr
  | 0, left => return left
  | bound + 1, left => do
    match ← operator? level with
    | some op =>
      let token ← advance
      let right ← self level.tighter
      operations self level bound (← binary op left token right)
    | none => return left

def negation (self : Readers) : Parse Expr := do
  match ← peek? with
  | some .kwNot =>
    let token ← advance
    unary .not token (← self .negation)
  | some .kwDefined =>
    let token ← advance
    unary .defined token (← self .negation)
  | _ => self .quantified

def quantified (self : Readers) : Parse Expr := do
  let next ← peek?
  let second ← peekAt? 1
  if next == some .kwFor then loop self
  else if (next == some .kwAll || next == some .kwAny || next == some .kwNone) &&
      second == some .kwOf then
    ofRest self (← quantifier self)
  else
    let e ← self .equality
    let next ← peek?
    let second ← peekAt? 1
    if next == some .modulo && second == some .kwOf then ofRest self (← percentage e)
    else if next == some .kwOf then
      match ← peekHandle? 0 with
      | some of_ => checkOperand of_ e .integer .left
      | none => pure ()
      ofRest self e
    else return e

def signed (self : Readers) : Parse Expr := do
  match ← peek? with
  | some .minus =>
    let token ← advance
    refine token .unaryMinus
    unary .minus token (← self .sign)
  | some .bitNot =>
    let token ← advance
    unary .bitNot token (← self .sign)
  | _ => self .access

/-- The rule of a level, given readers for the expressions inside. -/
def levelRule (self : Readers) : Readers
  | .negation => negation self
  | .quantified => quantified self
  | .sign => signed self
  | .access => do
    let e ← term self
    accesses self (← remaining) e
  | level => do
    let left ← self level.tighter
    operations self level (← remaining) left

/-- Reads an expression of a level with at most `depth` rules inside one another. -/
def exprWithin : Nat → Readers
  | 0, _ => unexpected "more input"
  | depth + 1, level => levelRule (exprWithin depth) level

/-- Reads a condition. Every pass through the levels takes a token, which bounds the depth. -/
def condition : Parse Expr := do
  exprWithin ((Level.count + 1) * ((← remaining) + 1)) .disjunction

end YaraRules.Grammar
