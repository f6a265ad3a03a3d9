import YaraRules.Module.Registry
import YaraRules.Rule

/-! Files of rules. A file owns the tokens that its imports and rules refer to. Rules
of included files are listed too; their tokens are in a stream that the token
of the include directive owns. -/

namespace YaraRules

structure Import where
  keyword : Handle
  /-- The string with the name of the module. -/
  name : Handle
  imported : Module
deriving Inhabited

def Import.moduleName (i : Import) : String := i.imported.name

structure RuleFile where
  tokens : TokenStream
  imports : List Import := []
  rules : List Rule := []
  pool : ModulePool
  /-- Features that imports are resolved with. -/
  features : Features
  /-- No stream of the file, and none that was put into it, has this identity or a later one. -/
  nextId : ChainId

namespace RuleFile

/-- A file without tokens. -/
def empty (id : ChainId) (features : Features) : RuleFile where
  tokens := .empty id
  pool := { features }
  features := features
  nextId := id + 1

def hasImport (file : RuleFile) (name : String) : Bool :=
  file.imports.any (·.moduleName == name)

def ruleIndex? (file : RuleFile) (name : String) : Option Nat :=
  file.rules.findIdx? (·.nameText file.tokens == name)

def rule? (file : RuleFile) (name : String) : Option Rule :=
  file.rules.find? (·.nameText file.tokens == name)

/-- Imports, one per line, and rules with blank lines between them, without comments. -/
def text (file : RuleFile) : String :=
  "".intercalate (file.imports.map fun i => "import \"" ++ i.moduleName ++ "\"\n") ++
    (if !file.imports.isEmpty && !file.rules.isEmpty then "\n" else "") ++
    "\n\n".intercalate (file.rules.map (·.text file.tokens))

end RuleFile

end YaraRules
