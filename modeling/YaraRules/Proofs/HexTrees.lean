import YaraRules.Proofs.ReadBounds

/-! Hex strings as trees. A tree holds the texts of bytes and of bounds where a hex string holds their
tokens, so it says what the hex string says in any stream, and how it is written. -/

namespace YaraRules

namespace Lexer

/-- Digits of a number in one of the three bases, with no unit behind them. -/
inductive Numeral : Bytes → Prop
  | decimal {digits : Bytes} (some : digits ≠ []) (all : ∀ b ∈ digits, isDigit b = true) : Numeral digits
  | hexadecimal {digits : Bytes} (some : digits ≠ [])
      (all : ∀ b ∈ digits, isHexDigit b = true) : Numeral (0x30 :: 0x78 :: digits)
  | octal {digits : Bytes} (some : digits ≠ [])
      (all : ∀ b ∈ digits, isOctalDigit b = true) : Numeral (0x30 :: 0x6F :: digits)

end Lexer

/-- A bound of a jump: how it is written, and the number that it stands for. -/
structure JumpBound where
  text : String
  number : Option Int
deriving DecidableEq

/-- A unit of a hex string. -/
inductive HexTree where
  | byte (text : String)
  | jump (low : Option JumpBound) (ranged : Bool) (high : Option JumpBound)
  | alternation (alternatives : List (List HexTree))

namespace JumpBound

/-- The lexer takes the text for the number. -/
structure Sound (b : JumpBound) : Prop where
  numeral : Lexer.Numeral (Bytes.ofText b.text)
  read : ∃ literal, Lexer.integerLiteral? (Bytes.ofText b.text) = some literal ∧ literal.number? = b.number

/-- Numbers are in order, unless the first is too large to be compared. -/
def InOrder (low high : JumpBound) : Prop :=
  ∀ m n, low.number = some m → high.number = some n → m ≤ n ∨ (Literal.signedLimit : Int) ≤ m

end JumpBound

namespace HexTree

/-- The unit can be read: its bytes are bytes, its jumps are in order, and it chooses between two
alternatives at least, none of them empty. -/
inductive Sound : HexTree → Prop
  | byte {text : String} (read : (HexByte.read? text).isSome) : Sound (byte text)
  | length {low : JumpBound} (low_sound : low.Sound) : Sound (jump (some low) false none)
  | range {low high : Option JumpBound} (low_sound : ∀ b ∈ low, b.Sound) (high_sound : ∀ b ∈ high, b.Sound)
      (order : ∀ l ∈ low, ∀ h ∈ high, l.InOrder h) : Sound (jump low true high)
  | alternation {alternatives : List (List HexTree)} (two : 2 ≤ alternatives.length)
      (some : ∀ units ∈ alternatives, units ≠ [])
      (each : ∀ units ∈ alternatives, ∀ unit ∈ units, Sound unit) : Sound (alternation alternatives)

def boundText : Option JumpBound → String
  | some b => b.text
  | none => ""

mutual

def text : HexTree → String
  | byte text => text
  | jump low ranged high =>
    if ranged then "[" ++ boundText low ++ "-" ++ boundText high ++ "]" else "[" ++ boundText low ++ "]"
  | alternation alternatives => "( " ++ " | ".intercalate (alternativeTexts alternatives) ++ " )"

def texts : List HexTree → List String
  | [] => []
  | unit :: rest => unit.text :: texts rest

def alternativeTexts : List (List HexTree) → List String
  | [] => []
  | units :: rest => " ".intercalate (texts units) :: alternativeTexts rest

end

/-- Text of a hex string. -/
def stringText (units : List HexTree) : String :=
  if units.isEmpty then "\x7b \x7d" else "\x7b " ++ " ".intercalate (texts units) ++ " \x7d"

end HexTree

/-! ### Trees of hex strings -/

namespace HexUnit

/-- The bound that a token is. -/
def bound (tokens : TokenStream) (h : Handle) : JumpBound := ⟨tokens.text h, tokens.number? h⟩

mutual

def tree (tokens : TokenStream) : HexUnit → HexTree
  | byte token => .byte (tokens.text token)
  | jump _ low dash high _ => .jump (low.map (bound tokens)) dash.isSome (high.map (bound tokens))
  | alternation _ alternatives _ => .alternation (treesAmong tokens alternatives)

def treesAll (tokens : TokenStream) : List HexUnit → List HexTree
  | [] => []
  | unit :: rest => unit.tree tokens :: treesAll tokens rest

def treesAmong (tokens : TokenStream) : List (List HexUnit) → List (List HexTree)
  | [] => []
  | units :: rest => treesAll tokens units :: treesAmong tokens rest

end

variable {x y : TokenStream}

private theorem boundText_tree (x : TokenStream) : ∀ h, boundText x h = HexTree.boundText (h.map (bound x))
  | some _ => rfl
  | none => rfl

mutual

private theorem text_tree (x : TokenStream) : ∀ unit : HexUnit, unit.text x = (unit.tree x).text
  | byte _ => by rw [text, tree, HexTree.text]
  | jump _ low dash high _ => by
    cases dash <;> simp [text, tree, HexTree.text, boundText_tree]
  | alternation _ alternatives _ => by rw [text, tree, HexTree.text, alternativeTexts_tree x alternatives]

private theorem texts_tree (x : TokenStream) : ∀ units : List HexUnit, texts x units = HexTree.texts (treesAll x units)
  | [] => by rw [texts, treesAll, HexTree.texts]
  | unit :: rest => by rw [texts, treesAll, HexTree.texts, text_tree x unit, texts_tree x rest]

private theorem alternativeTexts_tree (x : TokenStream) : ∀ alternatives : List (List HexUnit),
    alternativeTexts x alternatives = HexTree.alternativeTexts (treesAmong x alternatives)
  | [] => by rw [alternativeTexts, treesAmong, HexTree.alternativeTexts]
  | units :: rest => by
    rw [alternativeTexts, treesAmong, HexTree.alternativeTexts, texts_tree x units, alternativeTexts_tree x rest]

end

theorem treesAll_eq (x : TokenStream) (units : List HexUnit) : treesAll x units = units.map (tree x) := by
  induction units with
  | nil => rw [treesAll]; rfl
  | cons unit rest ih => rw [treesAll, ih]; rfl

theorem treesAmong_eq (x : TokenStream) (alternatives : List (List HexUnit)) :
    treesAmong x alternatives = alternatives.map (treesAll x) := by
  induction alternatives with
  | nil => rw [treesAmong]; rfl
  | cons units rest ih => rw [treesAmong, ih]; rfl

/-- A token is written the same way and stands for the same number in both streams. -/
def Same (x y : TokenStream) (h : Handle) : Prop := bound y h = bound x h

private theorem same_of_look (look : ∀ k, (y.get? k).map (fun a => (a.kind, a.literal)) = (x.get? k).map fun a =>
    (a.kind, a.literal)) (h : Handle) : Same x y h := by
  have literals (k : Handle) : (y.get? k).map (·.literal) = (x.get? k).map (·.literal) := by
    have seconds := congrArg (Option.map Prod.snd) (look k)
    rw [Option.map_map, Option.map_map] at seconds
    exact seconds
  have resolved : ∀ steps literal, y.resolveFrom steps literal = x.resolveFrom steps literal := by
    intro steps
    induction steps with
    | zero => exact fun _ => rfl
    | succ steps ih =>
      intro literal
      rw [TokenStream.resolveFrom, TokenStream.resolveFrom]
      split
      next target _ =>
        have same := literals target
        cases stored : x.get? target <;> cases stored' : y.get? target <;> simp_all
      next => rfl
  have targets (k : Handle) : y.resolve? k = x.resolve? k := by
    have same := literals k
    rw [TokenStream.resolve?, TokenStream.resolve?]
    cases stored : x.get? k <;> cases stored' : y.get? k <;> simp_all
  have own := look h
  rw [Same, bound, bound, TokenStream.number?, TokenStream.number?, TokenStream.text, TokenStream.text]
  cases stored : x.get? h <;> cases stored' : y.get? h <;> simp_all [TokenStream.textOf]

private theorem same_modify (x : TokenStream) (h : Handle) (f : Token → Token) (kind : ∀ a, (f a).kind = a.kind)
    (literal : ∀ a, (f a).literal = a.literal) (k : Handle) : Same x (x.modify h f) k := by
  refine same_of_look (fun k => ?_) k
  rw [TokenStream.get?_modify]
  split_ifs with here
  · rw [here, Option.map_map]
    simp [Function.comp_def, kind, literal]
  · rfl

theorem bounds_same {h : Option Handle} (same : ∀ k ∈ h, Same x y k) : h.map (bound y) = h.map (bound x) := by
  cases h with
  | none => rw [Option.map_none, Option.map_none]
  | some k => exact congrArg some (same k rfl)

mutual

/-- The tree depends on the tokens of the unit only. -/
theorem tree_same : ∀ unit : HexUnit, (∀ h ∈ unit.handles, Same x y h) → unit.tree y = unit.tree x
  | byte token, same => by
    have text : y.text token = x.text token := congrArg (·.text) (same token (by simp [handles]))
    rw [tree, tree, text]
  | jump _ low dash high _, same => by
    rw [tree, tree, bounds_same fun k member => same k ?_, bounds_same fun k member => same k ?_]
    · simp [handles, Option.mem_def.mp member]
    · simp [handles, Option.mem_def.mp member]
  | alternation _ alternatives _, same => by
    rw [tree, tree, treesAmong_same alternatives fun h member => same h (by simp [handles, member])]

theorem treesAll_same : ∀ units : List HexUnit, (∀ h ∈ handlesAll units, Same x y h) →
    treesAll y units = treesAll x units
  | [], _ => by rw [treesAll, treesAll]
  | unit :: rest, same => by
    rw [handlesAll, List.forall_mem_append] at same
    rw [treesAll, treesAll, tree_same unit same.1, treesAll_same rest same.2]

theorem treesAmong_same : ∀ alternatives : List (List HexUnit), (∀ h ∈ handlesAmong alternatives, Same x y h) →
    treesAmong y alternatives = treesAmong x alternatives
  | [], _ => by rw [treesAmong, treesAmong]
  | units :: rest, same => by
    rw [handlesAmong, List.forall_mem_append] at same
    rw [treesAmong, treesAmong, treesAll_same units same.1, treesAmong_same rest same.2]

end

theorem treesAll_breaks (x : TokenStream) (h : Handle) (wanted : Bool) (units : List HexUnit) :
    treesAll (x.modify h fun token => { token with breakAfter := token.breakAfter || wanted }) units =
    treesAll x units :=
  treesAll_same units fun k _ =>
    same_modify x h (fun token => { token with breakAfter := token.breakAfter || wanted }) (fun _ =>
      rfl) (fun _ => rfl) k

end HexUnit

namespace HexString

/-- What a hex string says. -/
def trees (s : HexString) (tokens : TokenStream) : List HexTree := HexUnit.treesAll tokens s.units

theorem text_trees (s : HexString) (tokens : TokenStream) : s.text tokens = HexTree.stringText (s.trees tokens) := by
  have empty : s.units.isEmpty = (s.trees tokens).isEmpty := by rw [trees, HexUnit.treesAll_eq, List.isEmpty_map]
  rw [text, HexTree.stringText, trees, ← HexUnit.texts_tree, empty, trees]

end HexString

end YaraRules
