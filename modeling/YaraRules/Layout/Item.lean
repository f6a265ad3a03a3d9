import YaraRules.TokenStream.Alias

/-! What the layout has to place: the tokens of a stream in order, with their texts.
On demand the content of included files stands in place of the directives. -/

namespace YaraRules.Layout

inductive Item where
  /-- A line break of the source. -/
  | lineBreak
  /-- A comment; `oneLine` if it ends its line, `margin` if it stood at the first column. -/
  | comment (oneLine margin : Bool) (text : String)
  /-- Any other token; `block` if its kind opens a bracket whose content goes on
  lines of its own. -/
  | code (kind : TokenKind) (text : String) (block : Bool)
  /-- Begin or end of an included file. -/
  | fileEdge
deriving DecidableEq, Inhabited

/-- The item of a token without regard to the stream it may own. -/
def itemOf (stream : TokenStream) (token : Token) : Item :=
  match token.kind with
  | .newLine => .lineBreak
  | .blockComment => .comment false (token.indentation == some 0) (stream.textOf token)
  | .lineComment => .comment true (token.indentation == some 0) (stream.textOf token)
  | kind => .code kind (stream.textOf token) token.breakAfter

/-- Items of the tokens of a stream, given the items of the included files by the
slots of the directives. The path of a directive that is replaced goes with it;
`skipPath` says that such a path may come next. -/
def itemsOf (stream : TokenStream) (included : List (Nat × List Item)) :
    Bool → List (Handle × Token) → List Item
  | _, [] => []
  | skipPath, (h, token) :: rest =>
    if skipPath && token.kind == .string then itemsOf stream included false rest
    else
      match if token.kind == .kwInclude then included.lookup h.index else none with
      | some inner => .fileEdge :: (inner ++ .fileEdge :: itemsOf stream included true rest)
      | none => itemOf stream token :: itemsOf stream included false rest

mutual

/-- Items of a stream with its included files in place of the directives. -/
def expandedItems : TokenStream → List Item
  | ⟨chain, nested⟩ => itemsOf ⟨chain, nested⟩ (includedItems nested) false chain.entries

def includedItems : List (Nat × Option TokenStream) → List (Nat × List Item)
  | [] => []
  | (index, some s) :: rest => (index, expandedItems s) :: includedItems rest
  | (_, none) :: rest => includedItems rest

end

/-- Items of a stream, with its included files if `expand`. -/
def items (stream : TokenStream) (expand : Bool) : List Item :=
  if expand then expandedItems stream else itemsOf stream [] false stream.entries

end YaraRules.Layout
