import YaraRules.TokenStream.Move

/-! Nodes together with tokens of their own. What is built or copied is detached until
its tokens are moved into the stream of a file. -/

namespace YaraRules

structure Detached (α : Type) where
  tokens : TokenStream
  node : α

namespace Detached

/-- A copy of a node whose tokens go from `first` to `last`, in a stream of its own.
`rename` gives the node the handles of the copied tokens. -/
def copyOf {α : Type} (rename : TokenStream.Renaming → α → α) (tokens : TokenStream)
    (id : ChainId) (node : α) (first last : Handle) :
    Except TokenStream.Error (Detached α) := do
  let (names, copy) ← tokens.copyRange id first last
  return ⟨copy, rename names node⟩

end Detached

end YaraRules
