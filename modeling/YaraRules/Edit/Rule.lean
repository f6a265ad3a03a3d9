import YaraRules.Detached
import YaraRules.Edit.Tokens
import YaraRules.Expr.Transform
import YaraRules.Lexer.Basic
import YaraRules.RuleFile

/-! Changes of a rule in a file. They are made on the tokens of the file, so that every
text of the file shows them. -/

namespace YaraRules

/-- The token of the string that a node of a condition names, if it is of such a kind. -/
def Expr.stringToken? : Expr → Option Handle
  | atom _ .stringRef token | atom _ .count token | atom _ .offset token
  | atom _ .length token => some token
  | stringAt _ id _ _ => some id
  | stringIn _ _ id _ _ => some id
  | stringIndexed _ _ id _ _ _ => some id
  | _ => none

/-- True if the condition names the string, whatever sigil the name has there. -/
def Rule.usesString (rule : Rule) (tokens : TokenStream) (id : String) : Bool :=
  let name := id.toList.dropWhile (· == '$')
  rule.condition.nodes.any fun (_, node) =>
    node.stringToken?.any fun token =>
      match (tokens.text token).toList with
      | sigil :: rest => sigil.toNat < 128 && rest == name
      | [] => false

/-- A rule and the tokens of the file that it is in. -/
structure RuleScope where
  tokens : TokenStream
  rule : Rule
  /-- An identity that is free for a stream to be put into the file. -/
  nextId : ChainId

/-- A change of a rule. When it fails, what it did before stays done. -/
abbrev RuleEdit := ExceptT EditError (StateM RuleScope)

namespace RuleEdit

/-- Makes a change of the tokens. -/
def onTokens {α : Type} (edit : TokenEdit α) : RuleEdit α := fun scope =>
  let (result, tokens) := edit.run scope.tokens
  (result, { scope with tokens })

def modifyRule (f : Rule → Rule) : RuleEdit Unit :=
  modify fun scope => { scope with rule := f scope.rule }

/-- Puts a word before the rule keyword. The word `global` goes before all others. -/
def addModifier (kind : TokenKind) : RuleEdit Unit := do
  let rule := (← get).rule
  let added ← onTokens (.insertBefore rule.keyword (.fixed kind))
  match kind == .kwGlobal, rule.modifiers with
  | true, other :: _ =>
    onTokens (.eraseOne added)
    let added ← onTokens (.insertBefore other (.fixed kind))
    modifyRule fun rule => { rule with modifiers := added :: rule.modifiers }
  | _, _ => modifyRule fun rule => { rule with modifiers := rule.modifiers ++ [added] }

/-- Gives the rule a word before its keyword, or takes it away. -/
def setModifier (kind : TokenKind) (wanted : Bool) : RuleEdit Unit := do
  let { tokens, rule, .. } ← get
  let present := rule.modifiers.findIdx? fun h => (tokens.get? h).any (·.kind == kind)
  match present, wanted with
  | none, true => addModifier kind
  | some index, false =>
    modifyRule fun rule => { rule with modifiers := rule.modifiers.eraseIdx index }
    for token in rule.modifiers[index]?.toList do
      onTokens (.eraseOne token)
  | _, _ => return

def setPrivate (wanted : Bool) : RuleEdit Unit := setModifier .kwPrivate wanted

def setGlobal (wanted : Bool) : RuleEdit Unit := setModifier .kwGlobal wanted

/-- The last tag, or the colon before the first one, which is added if it is missing. -/
def tagAnchor : RuleEdit Handle := do
  let rule := (← get).rule
  match rule.tags.getLast? with
  | some last => return last
  | none =>
    let colon ← onTokens (.insertAfter rule.name (.fixed .colon))
    modifyRule fun rule => { rule with tagColon := some colon }
    return colon

/-- Adds a tag after the others. -/
def addTag (tag : String) : RuleEdit Unit := do
  let { tokens, rule, .. } ← get
  if !Lexer.isIdentifier tag then throw (.invalidIdentifier tag)
  if (rule.tagTexts tokens).contains tag then throw (.duplicateTag tag)
  let anchor ← tagAnchor
  let token ← onTokens (.insertAfter anchor { kind := .tag, literal := .ofWritten tag })
  modifyRule fun rule => { rule with tags := rule.tags ++ [token] }

/-- Removes a tag, and the colon with the last one. False if the rule does not have the tag. -/
def removeTag (tag : String) : RuleEdit Bool := do
  let { tokens, rule, .. } ← get
  match rule.tags.find? (tokens.text · == tag) with
  | none => return false
  | some token =>
    let rest := rule.tags.erase token
    modifyRule fun rule => { rule with tags := rest }
    onTokens (.eraseOne token)
    match rest.isEmpty, rule.tagColon with
    | true, some colon =>
      modifyRule fun rule => { rule with tagColon := none }
      onTokens (.eraseOne colon)
      return true
    | _, _ => return true

/-- The token that a new entry of the meta section follows. A missing section is added. -/
def metaAnchor : RuleEdit Handle := do
  let rule := (← get).rule
  match rule.metas.getLast?, rule.metaSection with
  | some entry, _ => return entry.value
  | none, some header => return header.colon
  | none, none =>
    let next := (rule.stringSection.getD rule.conditionSection).keyword
    let keyword ← onTokens (.insertBefore next (.fixed .kwMeta))
    let colon ← onTokens (.insertAfter keyword (.fixed .colon))
    modifyRule fun rule => { rule with metaSection := some ⟨keyword, colon⟩ }
    return colon

/-- Kind of the token that holds a value of the meta section. -/
def metaValueKind (value : Literal) : TokenKind :=
  match value.value with
  | .bool _ => .boolean
  | .int _ | .uint _ => .integer
  | .float _ => .float
  | _ => .string

/-- Adds an entry at the end of the meta section. -/
def addMeta (key : String) (value : Literal) : RuleEdit Unit := do
  if !Lexer.isIdentifier key then throw (.invalidIdentifier key)
  let anchor ← metaAnchor
  let key ← onTokens (.insertAfter anchor { kind := .metaKey, literal := .ofWritten key })
  let assign ← onTokens (.insertAfter key (.fixed .assign))
  let value ← onTokens (.insertAfter assign { kind := metaValueKind value, literal := value })
  modifyRule fun rule => { rule with metas := rule.metas ++ [⟨key, assign, value⟩] }

/-- Changes the value of the first entry with the given key. -/
def setMetaValue (key : String) (value : Literal) : RuleEdit Unit := do
  let { tokens, rule, .. } ← get
  match rule.metaEntry? tokens key with
  | none => throw (.metaNotFound key)
  | some entry =>
    if (tokens.get? entry.value).isNone then throw (.metaNotFound key)
    modify fun scope =>
      { scope with
        tokens := (tokens.setKind entry.value (metaValueKind value)).setLiteral entry.value value }

def eraseHeader : Option Section → RuleEdit Unit
  | some header => onTokens (.eraseLine header.keyword header.colon)
  | none => return

/-- Removes every entry with the given key and tells how many there were. A section
without entries is removed too. -/
def removeMeta (key : String) : RuleEdit Nat := do
  let { tokens, rule, .. } ← get
  let (removed, kept) := rule.metas.partition (·.keyText tokens == key)
  modifyRule fun rule => { rule with metas := kept }
  for entry in removed do
    onTokens (.eraseLine entry.key entry.value)
  if kept.isEmpty then
    modifyRule fun rule => { rule with metaSection := none }
    eraseHeader rule.metaSection
  return removed.length

/-- Renames a string. References in the condition are aliases and follow. -/
def renameString (old new : String) : RuleEdit Unit := do
  let { rule, .. } ← get
  if !new.startsWith "$" || new == "$" || old == "$" then throw (.invalidStringIdentifier new)
  if rule.strings.contains new then throw (.duplicateString new)
  match rule.strings.get? old with
  | none => throw (.stringNotFound old)
  | some string =>
    modify fun scope => { scope with tokens := scope.tokens.setLiteral string.id (.ofWritten new) }
    modifyRule fun rule => { rule with strings := (rule.strings.rename? old new).getD rule.strings }

/-- Removes a string that the condition does not name. A section without strings is
removed too. -/
def removeString (id : String) : RuleEdit Unit := do
  let { tokens, rule, .. } ← get
  if !rule.strings.contains id then throw (.stringNotFound id)
  if rule.usesString tokens id then throw (.stringInUse id)
  let (removed, kept) := rule.strings.remove id
  modifyRule fun rule => { rule with strings := kept }
  for string in removed do
    onTokens (.eraseLine string.first string.last)
  if kept.isEmpty then
    modifyRule fun rule => { rule with stringSection := none }
    eraseHeader rule.stringSection

/-- Takes note of an identity that is in use. -/
def reserve (id : ChainId) : RuleEdit Unit :=
  modify fun scope => { scope with nextId := max scope.nextId (id + 1) }

/-- Replaces the condition. -/
def setCondition (condition : Detached Expr) : RuleEdit Unit := do
  reserve condition.tokens.id
  let old := (← get).rule.condition
  let names ← onTokens (.exchange old.first old.last condition.tokens)
  modifyRule fun rule => { rule with condition := condition.node.rename names }

/-- Offers a replacement for a node, given an identity for the stream of its tokens. -/
abbrev Modifier := ChainId → TokenStream → Expr → Option (Detached Expr)

/-- The tokens while nodes of a condition are replaced, the next free identity, and why
the replacing stopped, if it did. -/
structure Replacing where
  tokens : TokenStream
  nextId : ChainId
  error : Option EditError := none

/-- Puts the replacement for a node in its place, unless the replacing has stopped. -/
def replaceNode (modifier : Modifier) (node : Expr) : StateM Replacing Expr := do
  let state ← get
  if state.error.isSome then return node
  match modifier state.nextId state.tokens node with
  | none => return node
  | some replacement =>
    let (result, tokens) :=
      (TokenEdit.exchange node.first node.last replacement.tokens).run state.tokens
    let nextId := max state.nextId (replacement.tokens.id + 1)
    match result with
    | .ok names =>
      set { state with tokens, nextId }
      return replacement.node.rename names
    | .error error =>
      set { state with tokens, nextId, error := some error }
      return node

/-- Replaces nodes of the condition, children first. The first replacement that cannot be
put in its place ends the replacing; those before it stay. -/
def modifyCondition (modifier : Modifier) : RuleEdit Unit := do
  let scope ← get
  let (condition, state) :=
    (scope.rule.condition.transform (replaceNode modifier)).run
      { tokens := scope.tokens, nextId := scope.nextId }
  set { scope with
    tokens := state.tokens, nextId := state.nextId, rule := { scope.rule with condition } }
  match state.error with
  | some error => throw error
  | none => return

end RuleEdit

/-- Changes the rule with the given name, if there is one. -/
def RuleFile.editRule {α : Type} (file : RuleFile) (name : String) (edit : RuleEdit α) :
    Option (Except EditError α × RuleFile) := do
  let index ← file.ruleIndex? name
  let rule ← file.rules[index]?
  let (result, scope) := edit.run ⟨file.tokens, rule, file.nextId⟩
  return (result,
    { file with
      tokens := scope.tokens, rules := file.rules.set index scope.rule, nextId := scope.nextId })

end YaraRules
