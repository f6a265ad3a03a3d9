import YaraRules.Expr.Operator
import YaraRules.Regexp.Basic
import YaraRules.TokenStream.Alias

/-! Condition expressions. A node holds its type and the handles of its own tokens;
its text comes from the tokens. -/

namespace YaraRules

inductive Expr where
  | atom (type : ValueType) (kind : AtomKind) (token : Handle)
  | regexp (type : ValueType) (token : Handle) (regexp : Regexp)
  /-- `$a at <offset>` -/
  | stringAt (type : ValueType) (id at_ : Handle) (offset : Expr)
  /-- `$a in <range>`, or `#a in <range>` if `counted` -/
  | stringIn (type : ValueType) (counted : Bool) (id in_ : Handle) (range : Expr)
  /-- `@a[<index>]`, or `!a[<index>]` if `measured` -/
  | stringIndexed (type : ValueType) (measured : Bool) (id opening : Handle) (index : Expr)
      (closing : Handle)
  | unary (type : ValueType) (op : UnaryOp) (token : Handle) (operand : Expr)
  | binary (type : ValueType) (op : BinaryOp) (left : Expr) (token : Handle) (right : Expr)
  | paren (type : ValueType) (opening : Handle) (inner : Expr) (closing : Handle)
  | range (type : ValueType) (opening : Handle) (low : Expr) (dots : Handle) (high : Expr)
      (closing : Handle)
  | set (type : ValueType) (opening : Handle) (elements : List Expr) (closing : Handle)
  | field (type : ValueType) (structure_ : Expr) (dot member : Handle)
  | index (type : ValueType) (array : Expr) (opening : Handle) (index : Expr) (closing : Handle)
  | call (type : ValueType) (function : Expr) (opening : Handle) (args : List Expr)
      (closing : Handle)
  /-- `uint8(<arg>)` and its like -/
  | integerFunction (type : ValueType) (function opening : Handle) (arg : Expr)
      (closing : Handle)
  /-- `<quantifier> of <set>` -/
  | of (type : ValueType) (quantifier : Expr) (of_ : Handle) (set : Expr)
  /-- `<quantifier> of <set> at <anchor>`, or `in` -/
  | ofAnchored (type : ValueType) (quantifier : Expr) (of_ : Handle) (set : Expr)
      (keyword : Handle) (anchor : Expr)
  | forOf (type : ValueType) (for_ : Handle) (quantifier : Expr) (of_ : Handle) (set : Expr)
      (colon : Handle) (body : Expr)
  | forIn (type : ValueType) (for_ : Handle) (quantifier : Expr) (vars : List Handle)
      (in_ : Handle) (iterable : Expr) (colon : Handle) (body : Expr)
  | percentage (type : ValueType) (operand : Expr) (percent : Handle)
deriving Inhabited

namespace Expr

def type : Expr → ValueType
  | atom type .. | regexp type .. | stringAt type .. | stringIn type .. | stringIndexed type ..
  | unary type .. | binary type .. | paren type .. | range type .. | set type .. | field type ..
  | index type .. | call type .. | integerFunction type .. | of type .. | ofAnchored type ..
  | forOf type .. | forIn type .. | percentage type .. => type

/-- Name of the kind of node. -/
def label : Expr → String
  | atom _ kind _ => kind.label
  | regexp .. => "Regexp"
  | stringAt .. => "StringAt"
  | stringIn _ counted .. => if counted then "StringCountInRange" else "StringInRange"
  | stringIndexed _ measured .. => if measured then "StringLength" else "StringOffset"
  | unary _ op .. => op.label
  | binary _ op .. => op.label
  | paren .. => "Parentheses"
  | range .. => "Range"
  | set .. => "Set"
  | field .. => "StructAccess"
  | index .. => "ArrayAccess"
  | call .. => "FunctionCall"
  | integerFunction .. => "IntFunction"
  | of .. | ofAnchored .. => "Of"
  | forOf .. => "ForOf"
  | forIn .. => "ForIn"
  | percentage .. => "Percentage"

def first : Expr → Handle
  | atom _ _ token => token
  | regexp _ token _ => token
  | stringAt _ id _ _ => id
  | stringIn _ _ id _ _ => id
  | stringIndexed _ _ id _ _ _ => id
  | unary _ _ token _ => token
  | binary _ _ left _ _ => left.first
  | paren _ opening _ _ => opening
  | range _ opening _ _ _ _ => opening
  | set _ opening _ _ => opening
  | field _ structure_ _ _ => structure_.first
  | index _ array _ _ _ => array.first
  | call _ function _ _ _ => function.first
  | integerFunction _ function _ _ _ => function
  | of _ quantifier _ _ => quantifier.first
  | ofAnchored _ quantifier _ _ _ _ => quantifier.first
  | forOf _ for_ _ _ _ _ _ => for_
  | forIn _ for_ _ _ _ _ _ _ => for_
  | percentage _ operand _ => operand.first

def last : Expr → Handle
  | atom _ _ token => token
  | regexp _ token _ => token
  | stringAt _ _ _ offset => offset.last
  | stringIn _ _ _ _ bounds => bounds.last
  | stringIndexed _ _ _ _ _ closing => closing
  | unary _ _ _ operand => operand.last
  | binary _ _ _ _ right => right.last
  | paren _ _ _ closing => closing
  | range _ _ _ _ _ closing => closing
  | set _ _ _ closing => closing
  | field _ _ _ member => member
  | index _ _ _ _ closing => closing
  | call _ _ _ _ closing => closing
  | integerFunction _ _ _ _ closing => closing
  | of _ _ _ members => members.last
  | ofAnchored _ _ _ _ _ anchor => anchor.last
  | forOf _ _ _ _ _ _ body => body.last
  | forIn _ _ _ _ _ _ _ body => body.last
  | percentage _ _ percent => percent

/-- Direct children in source order. -/
def children : Expr → List Expr
  | atom .. | regexp .. => []
  | stringAt _ _ _ offset => [offset]
  | stringIn _ _ _ _ bounds => [bounds]
  | stringIndexed _ _ _ _ i _ => [i]
  | unary _ _ _ operand => [operand]
  | binary _ _ left _ right => [left, right]
  | paren _ _ inner _ => [inner]
  | range _ _ low _ high _ => [low, high]
  | set _ _ elements _ => elements
  | field _ structure_ _ _ => [structure_]
  | index _ array _ i _ => [array, i]
  | call _ function _ args _ => function :: args
  | integerFunction _ _ _ arg _ => [arg]
  | of _ quantifier _ members => [quantifier, members]
  | ofAnchored _ quantifier _ members _ anchor => [quantifier, members, anchor]
  | forOf _ _ quantifier _ members _ body => [quantifier, members, body]
  | forIn _ _ quantifier _ _ iterable _ body => [quantifier, iterable, body]
  | percentage _ operand _ => [operand]

mutual

/-- The expression with one blank between tokens where one is needed, given the words of the
tokens. -/
def textWith (word : Handle → String) : Expr → String
  | atom _ _ token => word token
  | regexp _ token _ => word token
  | stringAt _ id at_ offset =>
    word id ++ " " ++ word at_ ++ " " ++ offset.textWith word
  | stringIn _ _ id in_ bounds =>
    word id ++ " " ++ word in_ ++ " " ++ bounds.textWith word
  | stringIndexed _ _ id _ i _ => word id ++ "[" ++ i.textWith word ++ "]"
  | unary _ op token operand =>
    word token ++ (if op.isWord then " " else "") ++ operand.textWith word
  | binary _ _ left token right =>
    left.textWith word ++ " " ++ word token ++ " " ++ right.textWith word
  | paren _ _ inner _ => "(" ++ inner.textWith word ++ ")"
  | range _ _ low _ high _ => "(" ++ low.textWith word ++ ".." ++ high.textWith word ++ ")"
  | set _ _ elements _ => "(" ++ ", ".intercalate (textsWith word elements) ++ ")"
  | field _ structure_ _ member => structure_.textWith word ++ "." ++ word member
  | index _ array _ i _ => array.textWith word ++ "[" ++ i.textWith word ++ "]"
  | call _ function _ args _ =>
    function.textWith word ++ "(" ++ ", ".intercalate (textsWith word args) ++ ")"
  | integerFunction _ function _ arg _ => word function ++ "(" ++ arg.textWith word ++ ")"
  | of _ quantifier of_ members =>
    quantifier.textWith word ++ " " ++ word of_ ++ " " ++ members.textWith word
  | ofAnchored _ quantifier of_ members keyword anchor =>
    quantifier.textWith word ++ " " ++ word of_ ++ " " ++ members.textWith word ++ " " ++
      word keyword ++ " " ++ anchor.textWith word
  | forOf _ for_ quantifier of_ members colon body =>
    word for_ ++ " " ++ quantifier.textWith word ++ " " ++ word of_ ++ " " ++
      members.textWith word ++ " " ++ word colon ++ " " ++ body.textWith word
  | forIn _ for_ quantifier vars in_ iterable colon body =>
    word for_ ++ " " ++ quantifier.textWith word ++ " " ++
      ", ".intercalate (vars.map word) ++ " " ++ word in_ ++ " " ++
      iterable.textWith word ++ " " ++ word colon ++ " " ++ body.textWith word
  | percentage _ operand percent => operand.textWith word ++ word percent

def textsWith (word : Handle → String) : List Expr → List String
  | [] => []
  | e :: rest => e.textWith word :: textsWith word rest

end

/-- Text of the expression, however it was laid out. -/
def text (tokens : TokenStream) (e : Expr) : String := e.textWith tokens.text

mutual

/-- The expression with other handles for its tokens. -/
def mapHandles (f : Handle → Handle) : Expr → Expr
  | atom type kind token => atom type kind (f token)
  | regexp type token value => regexp type (f token) value
  | stringAt type id at_ offset => stringAt type (f id) (f at_) (offset.mapHandles f)
  | stringIn type counted id in_ bounds =>
    stringIn type counted (f id) (f in_) (bounds.mapHandles f)
  | stringIndexed type measured id opening i closing =>
    stringIndexed type measured (f id) (f opening) (i.mapHandles f) (f closing)
  | unary type op token operand => unary type op (f token) (operand.mapHandles f)
  | binary type op left token right =>
    binary type op (left.mapHandles f) (f token) (right.mapHandles f)
  | paren type opening inner closing =>
    paren type (f opening) (inner.mapHandles f) (f closing)
  | range type opening low dots high closing =>
    range type (f opening) (low.mapHandles f) (f dots) (high.mapHandles f) (f closing)
  | set type opening elements closing =>
    set type (f opening) (mapHandlesAll f elements) (f closing)
  | field type structure_ dot member =>
    field type (structure_.mapHandles f) (f dot) (f member)
  | index type array opening i closing =>
    index type (array.mapHandles f) (f opening) (i.mapHandles f) (f closing)
  | call type function opening args closing =>
    call type (function.mapHandles f) (f opening) (mapHandlesAll f args) (f closing)
  | integerFunction type function opening arg closing =>
    integerFunction type (f function) (f opening) (arg.mapHandles f) (f closing)
  | of type quantifier of_ members => of type (quantifier.mapHandles f) (f of_) (members.mapHandles f)
  | ofAnchored type quantifier of_ members keyword anchor =>
    ofAnchored type (quantifier.mapHandles f) (f of_) (members.mapHandles f) (f keyword)
      (anchor.mapHandles f)
  | forOf type for_ quantifier of_ members colon body =>
    forOf type (f for_) (quantifier.mapHandles f) (f of_) (members.mapHandles f) (f colon)
      (body.mapHandles f)
  | forIn type for_ quantifier vars in_ iterable colon body =>
    forIn type (f for_) (quantifier.mapHandles f) (vars.map f) (f in_)
      (iterable.mapHandles f) (f colon) (body.mapHandles f)
  | percentage type operand percent => percentage type (operand.mapHandles f) (f percent)

def mapHandlesAll (f : Handle → Handle) : List Expr → List Expr
  | [] => []
  | e :: rest => e.mapHandles f :: mapHandlesAll f rest

end

/-- The expression with the handles that its tokens have after a move. -/
def rename (r : TokenStream.Renaming) (e : Expr) : Expr := e.mapHandles r.apply

mutual

/-- Computes a result for an expression from itself and the results for its children. -/
def fold {β : Type} (f : Expr → List β → β) : Expr → β
  | e@(atom ..) => f e []
  | e@(regexp ..) => f e []
  | e@(stringAt _ _ _ offset) => f e [offset.fold f]
  | e@(stringIn _ _ _ _ bounds) => f e [bounds.fold f]
  | e@(stringIndexed _ _ _ _ i _) => f e [i.fold f]
  | e@(unary _ _ _ operand) => f e [operand.fold f]
  | e@(binary _ _ left _ right) => f e [left.fold f, right.fold f]
  | e@(paren _ _ inner _) => f e [inner.fold f]
  | e@(range _ _ low _ high _) => f e [low.fold f, high.fold f]
  | e@(set _ _ elements _) => f e (foldAll f elements)
  | e@(field _ structure_ _ _) => f e [structure_.fold f]
  | e@(index _ array _ i _) => f e [array.fold f, i.fold f]
  | e@(call _ function _ args _) => f e (function.fold f :: foldAll f args)
  | e@(integerFunction _ _ _ arg _) => f e [arg.fold f]
  | e@(of _ quantifier _ members) => f e [quantifier.fold f, members.fold f]
  | e@(ofAnchored _ quantifier _ members _ anchor) =>
    f e [quantifier.fold f, members.fold f, anchor.fold f]
  | e@(forOf _ _ quantifier _ members _ body) =>
    f e [quantifier.fold f, members.fold f, body.fold f]
  | e@(forIn _ _ quantifier _ _ iterable _ body) =>
    f e [quantifier.fold f, iterable.fold f, body.fold f]
  | e@(percentage _ operand _) => f e [operand.fold f]

def foldAll {β : Type} (f : Expr → List β → β) : List Expr → List β
  | [] => []
  | e :: rest => e.fold f :: foldAll f rest

end

/-- Every node with its depth, parents before children and in source order. -/
def nodes (e : Expr) : List (Nat × Expr) :=
  e.fold (fun e below depth => (depth, e) :: below.flatMap (· (depth + 1))) 0

/-- A step of a walk through an expression. -/
inductive Visit where
  | enter (node : Expr)
  | leave (node : Expr)

/-- A walk through an expression that goes into the nodes that `descend` selects. -/
def visits (descend : Expr → Bool) (e : Expr) : List Visit :=
  e.fold fun e below => .enter e :: ((if descend e then below.flatten else []) ++ [.leave e])

end Expr

end YaraRules
