import YaraRules.Draft.Rule
import YaraRules.Edit.File
import YaraRules.Grammar.File
import YaraRules.Layout.Render

/-! Drafts of files: modules to import and rules. -/

namespace YaraRules

structure FileDraft where
  features : Features := Features.current
  /-- Names of modules in order, each once. -/
  modules : List String := []
  rules : List (Detached Rule) := []

namespace FileDraft

def insertName (name : String) : List String → List String
  | [] => [name]
  | other :: rest =>
    if name < other then name :: other :: rest
    else if name == other then other :: rest
    else other :: insertName name rest

/-- Adds an import. Imports are written in order of name. -/
def withModule (draft : FileDraft) (name : String) : FileDraft :=
  { draft with modules := insertName name draft.modules }

def withRule (draft : FileDraft) (rule : Detached Rule) : FileDraft :=
  { draft with rules := draft.rules ++ [rule] }

/-- An identity that no stream of the draft has. -/
def nextId (draft : FileDraft) : ChainId :=
  draft.rules.foldl (fun id rule => max id (rule.tokens.id + 1)) 0

def appendNewline : FileEdit Unit := do
  let newline := (← get).tokens.newline
  let _ ← FileEdit.onTokens (.insertAt none newline)

/-- Writes a rule with a line break after it, and one before it unless it is the first. -/
def appendRule (rule : Detached Rule) : FileEdit Unit := do
  if !(← get).tokens.isEmpty then appendNewline
  FileEdit.addRule rule
  appendNewline

/-- The imports and rules of the draft in a file. -/
def assemble (draft : FileDraft) : FileEdit Unit := do
  for name in draft.modules do
    let _ ← FileEdit.addImport name
  draft.rules.forM appendRule

/-- The file. With `verify` its text is read again, which checks what conditions refer
to, and the file so read is the result. -/
def build (draft : FileDraft) (verify : Bool) : Except DraftError RuleFile :=
  match (RuleFile.empty draft.nextId draft.features).edit draft.assemble with
  | (.error error, _) => .error (.edit error)
  | (.ok _, file) =>
    if verify then
      let text := file.formatted {} false
      match RuleFile.ofSource { features := draft.features } {} 0 (Bytes.ofText text) with
      | .ok file => .ok file
      | .error error => .error (.rejected error text)
    else .ok file

end FileDraft

end YaraRules
