import YaraRules.Token

/-! Token streams. A stream is a chain of tokens; the token of an include directive
may own the stream of the included file. Handles of tokens in nested streams
are understood by the stream around them. -/

namespace YaraRules

/-- A chain of tokens with the streams that some of its tokens own, by slot and in
the order they were attached. A slot whose token was replaced keeps its place
in that order without a stream. -/
structure TokenStream where
  chain : Chain Token
  nested : List (Nat × Option TokenStream) := []

namespace TokenStream

/-- An operation was given a handle that it cannot use. -/
inductive Error where
  | invalidHandle (handle : Handle)
  /-- The last token of a range does not follow the first. -/
  | invalidRange (first last : Handle)
deriving DecidableEq

/-- Handles of moved or copied tokens, before and after. -/
structure Renaming where
  pairs : List (Handle × Handle) := []
deriving Inhabited

namespace Renaming

def get? (r : Renaming) (h : Handle) : Option Handle := r.pairs.lookup h

/-- The new handle of a token, or the given one if the token stayed. -/
def apply (r : Renaming) (h : Handle) : Handle := (r.get? h).getD h

def size (r : Renaming) : Nat := r.pairs.length

end Renaming

def empty (id : ChainId) : TokenStream := ⟨{ id }, []⟩

def id (s : TokenStream) : ChainId := s.chain.id

/-- Number of tokens, those of nested streams not counted. -/
def size (s : TokenStream) : Nat := s.chain.size

def isEmpty (s : TokenStream) : Bool := s.size == 0

def first? (s : TokenStream) : Option Handle := s.chain.first?

def last? (s : TokenStream) : Option Handle := s.chain.last?

/-- True if the token is in this stream itself. -/
def contains (s : TokenStream) (h : Handle) : Bool := s.chain.contains h

/-- Tokens with their handles, in order. -/
def entries (s : TokenStream) : List (Handle × Token) := s.chain.entries

def tokens (s : TokenStream) : List Token := s.entries.map (·.2)

/-- Stream owned by the token in a slot. -/
def subAt? (s : TokenStream) (index : Nat) : Option TokenStream := (s.nested.lookup index).join

/-- Streams nested in this one, one level deep. -/
def nestedStreams (s : TokenStream) : List TokenStream := s.nested.filterMap (·.2)

mutual

/-- The stream with the given identity, this one or one nested in it at any depth. -/
def owner? (id : ChainId) : TokenStream → Option TokenStream
  | ⟨chain, nested⟩ => if chain.id = id then some ⟨chain, nested⟩ else ownerAmong? id nested

def ownerAmong? (id : ChainId) : List (Nat × Option TokenStream) → Option TokenStream
  | [] => none
  | (_, some s) :: rest =>
    match owner? id s with
    | some found => some found
    | none => ownerAmong? id rest
  | (_, none) :: rest => ownerAmong? id rest

end

mutual

/-- Applies `f` to the stream with the given identity, at any depth. -/
def modifyOwner (id : ChainId) (f : TokenStream → TokenStream) : TokenStream → TokenStream
  | ⟨chain, nested⟩ =>
    if chain.id = id then f ⟨chain, nested⟩ else ⟨chain, modifyOwnerAmong id f nested⟩

/-- Only the first stream that holds the identity is changed. -/
def modifyOwnerAmong (id : ChainId) (f : TokenStream → TokenStream) :
    List (Nat × Option TokenStream) → List (Nat × Option TokenStream)
  | [] => []
  | (index, some s) :: rest =>
    if (owner? id s).isSome then (index, some (modifyOwner id f s)) :: rest
    else (index, some s) :: modifyOwnerAmong id f rest
  | (index, none) :: rest => (index, none) :: modifyOwnerAmong id f rest

end

/-- The token a handle names, also in a nested stream. -/
def get? (s : TokenStream) (h : Handle) : Option Token := do
  (← s.owner? h.chain).chain.get? h

def next? (s : TokenStream) (h : Handle) : Option Handle := do
  (← s.owner? h.chain).chain.next? h

def prev? (s : TokenStream) (h : Handle) : Option Handle := do
  (← s.owner? h.chain).chain.prev? h

/-- Stream owned by the token that a handle names. -/
def sub? (s : TokenStream) (h : Handle) : Option TokenStream := do
  let owner ← s.owner? h.chain
  owner.subAt? (← owner.chain.index? h)

/-- Changes the token that a handle names; nothing happens if there is none. -/
def modify (s : TokenStream) (h : Handle) (f : Token → Token) : TokenStream :=
  s.modifyOwner h.chain fun owner => { owner with chain := owner.chain.modify h f }

def setLiteral (s : TokenStream) (h : Handle) (literal : Literal) : TokenStream :=
  s.modify h fun token => { token with literal }

def setKind (s : TokenStream) (h : Handle) (kind : TokenKind) : TokenStream :=
  s.modify h fun token => { token with kind }

/-- Puts another token in the place of one, which loses the stream it owned. -/
def replace (s : TokenStream) (h : Handle) (token : Token) : TokenStream :=
  s.modifyOwner h.chain fun owner =>
    match owner.chain.index? h with
    | some index =>
      ⟨owner.chain.modifyAt index fun _ => token,
        owner.nested.map fun (i, sub) => if i = index then (i, none) else (i, sub)⟩
    | none => owner

/-- Slot of a token of this stream itself. -/
def checkedIndex (s : TokenStream) (h : Handle) : Except Error Nat :=
  match s.chain.index? h with
  | some index => .ok index
  | none => .error (.invalidHandle h)

/-- The stream that holds a token, at any depth. -/
def checkedOwner (s : TokenStream) (h : Handle) : Except Error TokenStream :=
  match s.owner? h.chain with
  | some owner => .ok owner
  | none => .error (.invalidHandle h)

/-- Tokens from `first` on, up to `last` or to the end of their stream. -/
def range (s : TokenStream) (first last : Handle) : Except Error (List (Handle × Token)) := do
  let owner ← s.checkedOwner first
  let firstIndex ← owner.checkedIndex first
  let lastIndex ← owner.checkedIndex last
  return owner.chain.entriesBetween firstIndex lastIndex

/-- Handles of the tokens from `first` to `last`, which has to follow. -/
def rangeHandles (s : TokenStream) (first last : Handle) : Except Error (List Handle) := do
  let handles := (← s.range first last).map (·.1)
  if handles.getLast? = some last then return handles else .error (.invalidRange first last)

/-- Appends a token. -/
def push (s : TokenStream) (token : Token) : Handle × TokenStream :=
  let (h, chain) := s.chain.pushBack token
  (h, { s with chain })

/-- Inserts a token into the stream that holds `position`, at the place next to it. -/
def insertInto (s : TokenStream) (position : Handle)
    (place : Chain Token → Nat → Option Nat) (token : Token) :
    Except Error (Handle × TokenStream) := do
  let owner ← s.checkedOwner position
  let index ← owner.checkedIndex position
  let (h, chain) := owner.chain.insertAt (place owner.chain index) token
  return (h, s.modifyOwner position.chain fun owner => { owner with chain })

/-- Inserts a token right before another one, also in a nested stream. -/
def insertBefore (s : TokenStream) (before : Handle) (token : Token) :
    Except Error (Handle × TokenStream) :=
  s.insertInto before (fun _ index => some index) token

/-- Inserts a token right after another one, also in a nested stream. -/
def insertAfter (s : TokenStream) (after : Handle) (token : Token) :
    Except Error (Handle × TokenStream) :=
  s.insertInto after (fun chain index => chain.nextAt index) token

/-- Takes a token of this stream itself out, together with the stream it owned. The
first part of the result tells whether the token had a place among the owners. -/
def take (s : TokenStream) (h : Handle) :
    Option (Token × Option (Option TokenStream) × TokenStream) := do
  let index ← s.chain.index? h
  let (token, chain) ← s.chain.take h
  return (token, s.nested.lookup index, ⟨chain, s.nested.filter (·.1 != index)⟩)

/-- Gives a token of this stream itself the stream of the file it includes. -/
def attach (s : TokenStream) (h : Handle) (sub : TokenStream) : Except Error TokenStream := do
  let index ← s.checkedIndex h
  let nested :=
    if s.nested.any (·.1 == index) then
      s.nested.map fun (i, old) => if i = index then (i, some sub) else (i, old)
    else s.nested ++ [(index, some sub)]
  return { s with nested }

end TokenStream

end YaraRules
