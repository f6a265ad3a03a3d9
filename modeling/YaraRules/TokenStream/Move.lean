import YaraRules.TokenStream.Alias

/-! Erasing, moving and copying ranges of tokens. Tokens that move to another stream
get new handles, which the operations report. -/

namespace YaraRules.TokenStream

/-- Takes tokens of this stream itself out; handles that it does not hold are passed over. -/
def dropAll (s : TokenStream) (handles : List Handle) : TokenStream :=
  handles.foldl (fun s h => match s.take h with
    | some (_, _, rest) => rest
    | none => s) s

/-- Removes the tokens from `first` to `last`, also in a nested stream. Aliases of
the removed tokens take copies of what they stood for. -/
def erase (s : TokenStream) (first last : Handle) : Except Error TokenStream := do
  let owner ← s.checkedOwner first
  let handles ← owner.rangeHandles first last
  let s := s.detachAliases handles
  return s.modifyOwner first.chain (·.dropAll handles)

def eraseOne (s : TokenStream) (h : Handle) : Except Error TokenStream := s.erase h h

/-- The line break that follows a token, or the token itself if none does. -/
def lineEnd (s : TokenStream) (h : Handle) : Handle :=
  match s.next? h with
  | some next => if (s.get? next).any (·.kind == .newLine) then next else h
  | none => h

/-- A moved token whose alias leads out of the moved range takes a copy of what it stands for. -/
def settleAlias (moved : List Handle) (s : TokenStream) (h : Handle) : TokenStream :=
  match (s.get? h).bind (·.literal.aliasTarget?) with
  | some target => if moved.contains target then s else s.copyTarget h target
  | none => s

/-- Moves one token; handles that `source` itself does not hold are passed over. -/
def moveOne (before : Option Nat) :
    TokenStream × TokenStream × List (Handle × Handle) → Handle →
    TokenStream × TokenStream × List (Handle × Handle)
  | (target, source, pairs), h =>
    match source.take h with
    | none => (target, source, pairs)
    | some (token, place, source) =>
      let (new, chain) := target.chain.insertAt before token
      let nested :=
        match place with
        | some sub => target.nested ++ [(new.index, sub)]
        | none => target.nested
      (⟨chain, nested⟩, source, pairs ++ [(h, new)])

/-- Redirects the alias of a token whose target was renamed. -/
def renameAlias (r : Renaming) (s : TokenStream) (h : Handle) : TokenStream :=
  match (s.get? h).bind (·.literal.aliasTarget?) with
  | some target =>
    match r.get? target with
    | some new => s.setLiteral h (.ofAlias new)
    | none => s
  | none => s

def checkedPosition (s : TokenStream) : Option Handle → Except Error (Option Nat)
  | some h => do return some (← s.checkedIndex h)
  | none => .ok none

/-- What became of the target of a move, and the source afterwards, which a failure leaves too. -/
abbrev Moved := Except Error (Renaming × TokenStream) × TokenStream

/-- Moves the tokens from `first` to `last` out of `source` to right before `before`,
or to the end. Aliases that cross the border of the range become copies. -/
def moveRange (target : TokenStream) (before : Option Handle) (source : TokenStream)
    (first last : Handle) : Moved :=
  match target.checkedPosition before, source.rangeHandles first last with
  | .error e, _ => (.error e, source)
  | .ok _, .error e => (.error e, source)
  | .ok position, .ok handles =>
    let settled := (handles.foldl (settleAlias handles) source).detachAliases handles
    let (target, source, pairs) := handles.foldl (moveOne position) (target, settled, [])
    let target := (pairs.map (·.2)).foldl (renameAlias ⟨pairs⟩) target
    (.ok (⟨pairs⟩, target), source)

/-- Writes the line breaks of `source` as those of the target. -/
def adoptNewlines (source target : TokenStream) : TokenStream :=
  match target.firstNewline? with
  | some text => source.setNewlines text
  | none => source

/-- Moves every token of `source`, whose line breaks are written as those of the target. -/
def moveAll (target : TokenStream) (before : Option Handle) (source : TokenStream) : Moved :=
  let source := source.adoptNewlines target
  match source.first?, source.last? with
  | some first, some last => target.moveRange before source first last
  | _, _ => (.ok ({}, target), source)

/-- A new stream with copies of the tokens from `first` to `last`. Aliases inside the
range lead to the copies, others to where they led before. -/
def copyRange (s : TokenStream) (id : ChainId) (first last : Handle) :
    Except Error (Renaming × TokenStream) := do
  let tokens ← s.range first last
  let (copy, pairs) := tokens.foldl (fun (copy, pairs) (h, token) =>
    let (new, copy) := copy.push token
    (copy, pairs ++ [(h, new)])) (TokenStream.empty id, [])
  let names : Renaming := ⟨pairs⟩
  if (names.get? last).isNone then .error (.invalidRange first last)
  else return (names, (pairs.map (·.2)).foldl (renameAlias names) copy)

/-- Replaces the tokens from `first` to `last` by every token of `source`. -/
def exchange (s : TokenStream) (first last : Handle) (source : TokenStream) : Moved :=
  match s.rangeHandles first last with
  | .error e => (.error e, source)
  | .ok _ =>
    match s.moveAll (some first) source with
    | (.error e, source) => (.error e, source)
    | (.ok (names, s), source) => (do return (names, ← s.erase first last), source)

end YaraRules.TokenStream
