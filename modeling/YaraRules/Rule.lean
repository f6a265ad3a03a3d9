import YaraRules.Expr.Basic
import YaraRules.NameTrie
import YaraRules.StringDefinition

/-! Rules as they are held by a file. A rule keeps the handles of its tokens, and
all that can be said about it is read off the tokens. -/

namespace YaraRules

/-- A section keyword and its colon, like `meta:`. -/
structure Section where
  keyword : Handle
  colon : Handle
deriving DecidableEq, Inhabited

/-- An entry `key = value` of the meta section. -/
structure MetaEntry where
  key : Handle
  assign : Handle
  value : Handle
deriving DecidableEq, Inhabited

structure Rule where
  /-- The words `private` and `global` in the order they were written. -/
  modifiers : List Handle
  keyword : Handle
  name : Handle
  /-- The colon before the tags, if there are any. -/
  tagColon : Option Handle
  tags : List Handle
  opening : Handle
  metaSection : Option Section
  metas : List MetaEntry
  stringSection : Option Section
  strings : NameTrie StringDefinition
  conditionSection : Section
  condition : Expr
  closing : Handle
  location : Location
  /-- What stands for the rule in the conditions of other rules. -/
  symbol : Symbol
deriving Inhabited

def Section.mapHandles (f : Handle → Handle) (s : Section) : Section :=
  ⟨f s.keyword, f s.colon⟩

namespace MetaEntry

def keyText (m : MetaEntry) (tokens : TokenStream) : String := tokens.text m.key

def literal? (m : MetaEntry) (tokens : TokenStream) : Option Literal :=
  (tokens.get? m.value).map (·.literal)

def text (m : MetaEntry) (tokens : TokenStream) : String :=
  m.keyText tokens ++ " = " ++ tokens.text m.value

def mapHandles (f : Handle → Handle) (m : MetaEntry) : MetaEntry :=
  ⟨f m.key, f m.assign, f m.value⟩

end MetaEntry

namespace Rule

/-- The symbol of a rule with the given name. -/
def symbolNamed (name : String) : Symbol := .value name .boolean

def nameText (rule : Rule) (tokens : TokenStream) : String := tokens.text rule.name

/-- True if one of the words before the rule keyword is of this kind. -/
def hasModifier (rule : Rule) (tokens : TokenStream) (kind : TokenKind) : Bool :=
  rule.modifiers.any fun h => (tokens.get? h).any (·.kind == kind)

def isPrivate (rule : Rule) (tokens : TokenStream) : Bool := rule.hasModifier tokens .kwPrivate

def isGlobal (rule : Rule) (tokens : TokenStream) : Bool := rule.hasModifier tokens .kwGlobal

def tagTexts (rule : Rule) (tokens : TokenStream) : List String := rule.tags.map tokens.text

/-- The first entry of the meta section with the given key. -/
def metaEntry? (rule : Rule) (tokens : TokenStream) (key : String) : Option MetaEntry :=
  rule.metas.find? (·.keyText tokens == key)

def first (rule : Rule) : Handle := rule.modifiers.head?.getD rule.keyword

def last (rule : Rule) : Handle := rule.closing

/-- The rule on lines of its own, however it was laid out and without comments. -/
def text (rule : Rule) (tokens : TokenStream) : String :=
  let modifiers := "".intercalate (rule.modifiers.map fun h => tokens.text h ++ " ")
  let tags :=
    if rule.tags.isEmpty then "" else " : " ++ " ".intercalate (rule.tagTexts tokens)
  let entries (title : String) (texts : List String) : String :=
    if texts.isEmpty then ""
    else "\t" ++ title ++ ":\n" ++ "".intercalate (texts.map fun t => "\t\t" ++ t ++ "\n")
  modifiers ++ "rule " ++ rule.nameText tokens ++ tags ++ " \x7b\n" ++
    entries "meta" (rule.metas.map (·.text tokens)) ++
    entries "strings" (rule.strings.values.map (·.text tokens)) ++
    "\tcondition:\n\t\t" ++ rule.condition.text tokens ++ "\n\x7d"

/-- The rule with other handles for its tokens. -/
def mapHandles (f : Handle → Handle) (rule : Rule) : Rule where
  modifiers := rule.modifiers.map f
  keyword := f rule.keyword
  name := f rule.name
  tagColon := rule.tagColon.map f
  tags := rule.tags.map f
  opening := f rule.opening
  metaSection := rule.metaSection.map (·.mapHandles f)
  metas := rule.metas.map (·.mapHandles f)
  stringSection := rule.stringSection.map (·.mapHandles f)
  strings := rule.strings.mapValues (·.mapHandles f)
  conditionSection := rule.conditionSection.mapHandles f
  condition := rule.condition.mapHandles f
  closing := f rule.closing
  location := rule.location
  symbol := rule.symbol

/-- The rule with the handles that its tokens have after a move. -/
def rename (r : TokenStream.Renaming) (rule : Rule) : Rule := rule.mapHandles r.apply

end Rule

end YaraRules
