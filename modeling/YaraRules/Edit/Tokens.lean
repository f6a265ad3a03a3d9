import YaraRules.Edit.Error
import YaraRules.TokenStream.Move

/-! Changes of the tokens that a file owns, as the steps that edits are made of. -/

namespace YaraRules

/-- A change of tokens. When it fails, what it did before stays done. -/
abbrev TokenEdit := ExceptT EditError (StateM TokenStream)

namespace TokenEdit

/-- Makes a change that is done as a whole or not at all. -/
def apply {α : Type} (f : TokenStream → Except TokenStream.Error (α × TokenStream)) :
    TokenEdit α := do
  match f (← get) with
  | .ok (result, tokens) =>
    set tokens
    return result
  | .error error => throw (.tokens error)

def insertBefore (before : Handle) (token : Token) : TokenEdit Handle :=
  apply (·.insertBefore before token)

def insertAfter (after : Handle) (token : Token) : TokenEdit Handle :=
  apply (·.insertAfter after token)

/-- Inserts a token before another one, or at the end. -/
def insertAt (before : Option Handle) (token : Token) : TokenEdit Handle :=
  match before with
  | some before => insertBefore before token
  | none => modifyGet (·.push token)

def erase (first last : Handle) : TokenEdit Unit :=
  apply fun tokens => do return ((), ← tokens.erase first last)

def eraseOne (h : Handle) : TokenEdit Unit := erase h h

/-- Erases tokens together with the line break that follows them. -/
def eraseLine (first last : Handle) : TokenEdit Unit := do
  erase first ((← get).lineEnd last)

/-- Replaces tokens by those of a stream and gives the new handles of the latter. -/
def exchange (first last : Handle) (source : TokenStream) : TokenEdit TokenStream.Renaming :=
  apply fun tokens => (tokens.exchange first last source).1

/-- Moves in every token of a stream, before a token or to the end. -/
def moveAll (before : Option Handle) (source : TokenStream) : TokenEdit TokenStream.Renaming :=
  apply fun tokens => (tokens.moveAll before source).1

end TokenEdit

end YaraRules
