import YaraRules.Grammar.Rule

/-! The grammar of files: imports, includes and rules in any order. An included file
is read where the directive stands, and its tokens become a stream that the
token of the directive owns. -/

namespace YaraRules

namespace Grammar

/-- An import; those of a module that is imported already change nothing. -/
def importDirective : Parse Unit := do
  let keyword ← expect .kwImport
  let name ← expect .string
  let moduleName := Text.trimChar '"' (← textOf name)
  let s ← get
  let (loaded, pool) := s.pool.load moduleName s.settings.features
  match loaded with
  | some imported =>
    let imports :=
      if s.imports.any (·.moduleName == imported.name) then s.imports
      else s.imports ++ [⟨keyword, name, imported⟩]
    modify fun s => { s with pool, imports }
  | none => fail name (.unknownModule moduleName)

/-- Tokens of a source under a new identity. -/
def sourceOf (id : ChainId) (path : Option String) (content : Bytes) :
    Except ParseError Source := do
  let (stream, rest) := (← Lexer.tokens path content).foldl
    (fun (stream, rest) token =>
      let (h, stream) := TokenStream.push stream token
      (stream, if token.kind.isTrivia then rest else h :: rest))
    (TokenStream.empty id, [])
  return ⟨stream, rest.reverse, path⟩

/-- Reads a file with `items` in place of the present source, which comes back afterwards. -/
def readIncluded (items : Parse Unit) (keyword : Handle) (place : FileTree.Place)
    (path : String) (content : Bytes) : Parse Unit := do
  let outer := (← get).source
  let opened := (← get).opened
  match sourceOf (← get).nextId (some path) content with
  | .error e => throw e
  | .ok source =>
    modify fun s => { s with
      source
      nextId := s.nextId + 1
      opened := place :: s.opened
      included := place :: s.included }
    items
    let inner := (← get).source.tokens
    modify fun s => { s with source := outer, opened }
    match outer.tokens.attach keyword inner with
    | .ok tokens => modifyTokens fun _ => tokens
    | .error _ => pure ()

/-- An include directive; `items` reads the items of the included file. -/
def includeDirective (items : Parse Unit) : Parse Unit := do
  let keyword ← expect .kwInclude
  let token ← expect .string
  let written := Text.trimChar '"' (← textOf token)
  let s ← get
  let path :=
    match s.source.path with
    | some outer => pathJoin (pathParent outer) written
    | none => written
  match s.tree.locate path with
  | .error fault => fail token (.includeFailed written fault.message)
  | .ok place =>
    if s.opened.contains place then fail token (.includeCycle written)
    else if s.settings.mode == .once && s.included.contains place then return ()
    else
      match s.tree.read path with
      | .error fault => fail token (.includeFailed written fault.message)
      | .ok content => readIncluded items keyword place path content

/-- Items up to the end of the source. No more than `bound` tokens are left. -/
def items (include_ : Parse Unit) : Nat → Parse Unit
  | 0 => return ()
  | bound + 1 => do
    match ← peek? with
    | none => return ()
    | some .kwImport => importDirective
    | some .kwInclude => include_
    | some .kwRule | some .kwPrivate | some .kwGlobal =>
      let rule ← rule
      modify fun s => { s with rules := s.rules ++ [rule] }
    | some _ => unexpected "import, include or rule"
    items include_ bound

/-- Items of a source that includes files down to the given depth. -/
def itemsWithin : Nat → Parse Unit
  | 0 => do items (includeDirective (pure ())) (← remaining)
  | depth + 1 => do items (includeDirective (itemsWithin depth)) (← remaining)

/-- Reads a source to its end. A file cannot include itself, so files are nested no
deeper than there are files. -/
def readSource (settings : Settings) (tree : FileTree) (source : Source) (nextId : ChainId)
    (opened : List FileTree.Place) : Except ParseError RuleFile := do
  let ((), s) ← (itemsWithin tree.files.length).run {
    settings, tree, source, nextId, opened
    included := opened
    pool := { features := settings.features } }
  return {
    tokens := s.source.tokens
    imports := s.imports
    rules := s.rules
    pool := s.pool
    features := settings.features
    nextId := s.nextId }

end Grammar

namespace RuleFile

/-- Reads rules that come from no file; includes are resolved from the working
directory. Streams are identified by `id` and the identities after it. -/
def ofSource (settings : Settings) (tree : FileTree) (id : ChainId) (content : Bytes) :
    Except ParseError RuleFile := do
  let source ← Grammar.sourceOf id none content
  Grammar.readSource settings tree source (id + 1) []

/-- Reads a file; includes are resolved from its directory. -/
def ofPath (settings : Settings) (tree : FileTree) (id : ChainId) (path : String) :
    Except ParseError RuleFile := do
  match tree.read path with
  | .error fault => throw ⟨.includeFailed path fault.message, {}⟩
  | .ok content =>
    let source ← Grammar.sourceOf id (some path) content
    Grammar.readSource settings tree source (id + 1) (tree.locate path).toOption.toList

end RuleFile

end YaraRules
