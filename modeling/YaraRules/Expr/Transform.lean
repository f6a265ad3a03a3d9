import YaraRules.Expr.Basic

/-! Changing the nodes of an expression. Children come before the node that holds them,
in source order, and the node is offered with its new children. -/

namespace YaraRules.Expr

variable {m : Type → Type} [Monad m]

mutual

/-- Applies `f` to every node, children first. -/
def transform (f : Expr → m Expr) : Expr → m Expr
  | e@(atom ..) => f e
  | e@(regexp ..) => f e
  | stringAt type id at_ offset => do f (stringAt type id at_ (← offset.transform f))
  | stringIn type counted id in_ bounds => do
    f (stringIn type counted id in_ (← bounds.transform f))
  | stringIndexed type measured id opening i closing => do
    f (stringIndexed type measured id opening (← i.transform f) closing)
  | unary type op token operand => do f (unary type op token (← operand.transform f))
  | binary type op left token right => do
    let left ← left.transform f
    let right ← right.transform f
    f (binary type op left token right)
  | paren type opening inner closing => do f (paren type opening (← inner.transform f) closing)
  | range type opening low dots high closing => do
    let low ← low.transform f
    let high ← high.transform f
    f (range type opening low dots high closing)
  | set type opening elements closing => do
    f (set type opening (← transformAll f elements) closing)
  | field type structure_ dot member => do f (field type (← structure_.transform f) dot member)
  | index type array opening i closing => do
    let array ← array.transform f
    let i ← i.transform f
    f (index type array opening i closing)
  | call type function opening args closing => do
    let function ← function.transform f
    let args ← transformAll f args
    f (call type function opening args closing)
  | integerFunction type function opening arg closing => do
    f (integerFunction type function opening (← arg.transform f) closing)
  | of type quantifier of_ members => do
    let quantifier ← quantifier.transform f
    let members ← members.transform f
    f (of type quantifier of_ members)
  | ofAnchored type quantifier of_ members keyword anchor => do
    let quantifier ← quantifier.transform f
    let members ← members.transform f
    let anchor ← anchor.transform f
    f (ofAnchored type quantifier of_ members keyword anchor)
  | forOf type for_ quantifier of_ members colon body => do
    let quantifier ← quantifier.transform f
    let members ← members.transform f
    let body ← body.transform f
    f (forOf type for_ quantifier of_ members colon body)
  | forIn type for_ quantifier vars in_ iterable colon body => do
    let quantifier ← quantifier.transform f
    let iterable ← iterable.transform f
    let body ← body.transform f
    f (forIn type for_ quantifier vars in_ iterable colon body)
  | percentage type operand percent => do f (percentage type (← operand.transform f) percent)

def transformAll (f : Expr → m Expr) : List Expr → m (List Expr)
  | [] => return []
  | e :: rest => do
    let first ← e.transform f
    return first :: (← transformAll f rest)

end

end YaraRules.Expr
