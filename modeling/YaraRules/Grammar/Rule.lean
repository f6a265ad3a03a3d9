import YaraRules.Grammar.Condition
import YaraRules.Grammar.Strings
import YaraRules.TokenStream.Move

/-! The grammar of rules. -/

namespace YaraRules.Grammar

/-- The words `private` and `global`, each at most once. No more than `bound` tokens are left. -/
def ruleModifiers : Nat → List (TokenKind × Handle) → Parse (List Handle)
  | 0, before => return before.map (·.2)
  | bound + 1, before => do
    match ← peek? with
    | some kind =>
      if kind == .kwPrivate || kind == .kwGlobal then
        let token ← advance
        if before.any (·.1 == kind) then fail token (.duplicateModifier (← textOf token))
        ruleModifiers bound (before ++ [(kind, token)])
      else return before.map (·.2)
    | none => return before.map (·.2)

/-- Tags after those before, which they must differ from. No more than `bound` tokens are left. -/
def tagsAfter : Nat → List Handle → Parse (List Handle)
  | 0, before => return before
  | bound + 1, before => do
    if (← peek?) == some .identifier then
      let token ← advance
      refine token .tag
      let tokens ← tokens
      let text := tokens.text token
      if before.any (tokens.text · == text) then fail token (.duplicateTag text)
      tagsAfter bound (before ++ [token])
    else return before

/-- The colon before the tags and the tags, if there are any. -/
def tags : Parse (Option Handle × List Handle) := do
  match ← accept? .colon with
  | some colon =>
    let tags ← tagsAfter (← remaining) []
    if tags.isEmpty then unexpected "tag"
    return (some colon, tags)
  | none => return (none, [])

/-- Literal of a number after a minus sign, unless the number is too large to be negated. -/
def negated? (literal : Literal) : Option Literal :=
  match literal.value with
  | .int i =>
    let negated := Literal.ofInt (-i)
    match literal.formatted with
    | some text => some (negated.withFormatted ("-" ++ text))
    | none => some negated
  | _ => none

/-- Joins a minus sign and a number into the token of the number. -/
def negativeNumber : Parse Handle := do
  let minus ← advance
  let value ← advance
  let literal := (((← tokens).get? value).map (·.literal)).getD (.ofInt 0)
  match negated? literal with
  | none => fail value (.integerOutOfRange ("-" ++ literal.text))
  | some negated =>
    setLiteral value negated
    match (← tokens).eraseOne minus with
    | .ok tokens => modifyTokens fun _ => tokens
    | .error _ => pure ()
    return value

def metaValue : Parse Handle := do
  match ← peek? with
  | some .string =>
    let token ← advance
    checkEscapes token
    return token
  | some .integer | some .boolean => advance
  | some .minus =>
    if (← peekAt? 1) == some .integer then negativeNumber
    else unexpected "string, integer or boolean"
  | _ => unexpected "string, integer or boolean"

def metaEntry : Parse MetaEntry := do
  let key ← expect .identifier
  refine key .metaKey
  let assign ← expect .assign
  return ⟨key, assign, ← metaValue⟩

def metaSection : Parse (Section × List MetaEntry) := do
  let keyword ← expect .kwMeta
  let colon ← expect .colon
  let entries ← itemsWhile (· == .identifier) metaEntry (← remaining)
  return (⟨keyword, colon⟩, entries)

/-- What stands before the condition of a rule. -/
structure RuleHead where
  modifiers : List Handle
  keyword : Handle
  name : Handle
  tagColon : Option Handle
  tags : List Handle
  opening : Handle
  metaSection : Option Section
  metas : List MetaEntry
  stringSection : Option Section
  conditionSection : Section

/-- The meta section, if there is one. -/
def metaSection? : Parse (Option Section × List MetaEntry) := do
  if (← peek?) == some .kwMeta then
    let (header, metas) ← metaSection
    return (some header, metas)
  else return (none, [])

/-- The strings section, if there is one. -/
def stringSection? : Parse (Option Section) := do
  if (← peek?) == some .kwStrings then return some (← stringSection) else return none

/-- A rule up to its condition. -/
def ruleHead : Parse RuleHead := do
  let modifiers ← ruleModifiers (← remaining) []
  let keyword ← expect .kwRule
  let name ← expect .identifier
  refine name .ruleName
  let text ← textOf name
  if ((← get).ruleNames.lookup text).isSome then fail name (.duplicateRule text)
  let (tagColon, tags) ← tags
  let opening ← expect .openBrace
  refine opening .ruleBegin
  modify fun s => { s with strings := {}, scopes := [], stringLoops := 0 }
  let (metaSection, metas) ← metaSection?
  let stringSection ← stringSection?
  let conditionKeyword ← expect .kwCondition
  let conditionColon ← expect .colon
  return {
    modifiers, keyword, name, tagColon, tags, opening, metaSection, metas, stringSection
    conditionSection := ⟨conditionKeyword, conditionColon⟩ }

/-- A rule from the end of its condition on. -/
def ruleTail (head : RuleHead) (condition : Expr) : Parse Rule := do
  let closing ← expect .closeBrace
  refine closing .ruleEnd
  let first := head.modifiers.head?.getD head.keyword
  let location := (← locationOf first).combine (← locationOf closing)
  let text ← textOf head.name
  let strings := (← get).strings
  modify fun s => { s with strings := {}, ruleNames := (text, head.name) :: s.ruleNames }
  return {
    modifiers := head.modifiers
    keyword := head.keyword
    name := head.name
    tagColon := head.tagColon
    tags := head.tags
    opening := head.opening
    metaSection := head.metaSection
    metas := head.metas
    stringSection := head.stringSection
    conditionSection := head.conditionSection
    strings, condition, closing, location
    symbol := Rule.symbolNamed text }

/-- A rule, from its modifiers to the closing brace. -/
def rule : Parse Rule := do
  let head ← ruleHead
  let condition ← condition
  ruleTail head condition

end YaraRules.Grammar
