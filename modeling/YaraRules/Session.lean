import YaraRules.Grammar.File

/-! A reader of sources that keeps the last file it could read. -/

namespace YaraRules

/-- Nothing goes from one source to the next; a failure leaves the session without a file. -/
structure Session where
  file : Option RuleFile := none

namespace Session

/-- The session after an attempt to read a file. -/
def after (result : Except ParseError RuleFile) : Session := ⟨result.toOption⟩

def readSource (settings : Settings) (tree : FileTree) (content : Bytes) :
    Except ParseError RuleFile × Session :=
  let result := RuleFile.ofSource settings tree 0 content
  (result, after result)

def readPath (settings : Settings) (tree : FileTree) (path : String) :
    Except ParseError RuleFile × Session :=
  let result := RuleFile.ofPath settings tree 0 path
  (result, after result)

/-- Hands the file out and keeps none. -/
def take (s : Session) : Option RuleFile × Session := (s.file, {})

end Session

end YaraRules
