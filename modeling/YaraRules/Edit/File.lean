import YaraRules.Edit.Rule

/-! Changes of a file: its imports and which rules it has. -/

namespace YaraRules

/-- A change of a file. When it fails, what it did before stays done. -/
abbrev FileEdit := ExceptT EditError (StateM RuleFile)

namespace FileEdit

/-- Makes a change of the tokens. -/
def onTokens {α : Type} (edit : TokenEdit α) : FileEdit α := fun file =>
  let (result, tokens) := edit.run file.tokens
  (result, { file with tokens })

/-- The token that a new import goes before: the one that starts the line after the last
import, or the first of the file. -/
def importAnchor (file : RuleFile) : Option Handle :=
  match file.imports.getLast? with
  | some last => file.tokens.next? (file.tokens.lineEnd last.name)
  | none => file.tokens.first?

/-- Adds an import on a line of its own. False if the module is imported already. -/
def addImport (name : String) : FileEdit Bool := do
  if (← get).hasImport name then return false
  let (found, pool) := (← get).pool.load name (← get).features
  modify fun file => { file with pool }
  match found with
  | none => throw (.unknownModule name)
  | some imported =>
    let file ← get
    let anchor := importAnchor file
    let keyword ← onTokens (.insertAt anchor (.fixed .kwImport))
    let nameToken ← onTokens (.insertAt anchor { kind := .string, literal := .ofWritten name })
    let _ ← onTokens (.insertAt anchor file.tokens.newline)
    modify fun file => { file with imports := file.imports ++ [⟨keyword, nameToken, imported⟩] }
    return true

/-- True if a condition has a name that reads like this. -/
def refersTo (file : RuleFile) (name : String) : Bool :=
  file.rules.any fun rule => rule.condition.nodes.any fun
    | (_, .atom _ .name token) => file.tokens.text token == name
    | _ => false

/-- Removes an import whose module no condition names. False if there is none. -/
def removeImport (name : String) : FileEdit Bool := do
  let file ← get
  match file.imports.findIdx? (·.moduleName == name) with
  | none => return false
  | some index =>
    if refersTo file name then throw (.moduleInUse name)
    modify fun file => { file with imports := file.imports.eraseIdx index }
    for removed in file.imports[index]?.toList do
      onTokens (.eraseLine removed.keyword removed.name)
    return true

/-- Inserts a rule before the one at an index, or at the end if there are as many rules. -/
def insertRule (index : Nat) (rule : Detached Rule) : FileEdit Unit := do
  let file ← get
  let name := rule.node.nameText rule.tokens
  if (file.rule? name).isSome then throw (.duplicateRule name)
  let before ← match file.rules[index]? with
    | some next => pure (some next.first)
    | none =>
      if index = file.rules.length then pure none else throw (.ruleNotFound (toString index))
  modify fun file => { file with nextId := max file.nextId (rule.tokens.id + 1) }
  let names ← onTokens (.moveAll before rule.tokens)
  modify fun file => { file with rules := file.rules.insertIdx index (rule.node.rename names) }

/-- Adds a rule at the end. -/
def addRule (rule : Detached Rule) : FileEdit Unit := do
  insertRule (← get).rules.length rule

/-- Removes a rule. Other conditions keep their text. False if there is no such rule. -/
def removeRule (name : String) : FileEdit Bool := do
  let file ← get
  match file.ruleIndex? name with
  | none => return false
  | some index =>
    modify fun file => { file with rules := file.rules.eraseIdx index }
    for removed in file.rules[index]?.toList do
      onTokens (.eraseLine removed.first removed.last)
    return true

/-- Renames a rule. References in other conditions are aliases and follow. -/
def renameRule (old new : String) : FileEdit Unit := do
  let file ← get
  if !Lexer.isIdentifier new then throw (.invalidIdentifier new)
  if (file.rule? new).isSome then throw (.duplicateRule new)
  match file.ruleIndex? old with
  | none => throw (.ruleNotFound old)
  | some index =>
    let rules := file.rules.modify index fun rule => { rule with symbol := Rule.symbolNamed new }
    let tokens := (file.rules[index]?).elim file.tokens fun rule =>
      file.tokens.setLiteral rule.name (.ofWritten new)
    set { file with rules, tokens }

end FileEdit

/-- Makes a change of the file. -/
def RuleFile.edit {α : Type} (file : RuleFile) (edit : FileEdit α) :
    Except EditError α × RuleFile :=
  edit.run file

end YaraRules
