/-! Regular expressions as trees that are written back as they were read. -/

namespace YaraRules

/-- How often something is repeated. -/
inductive Repetition where
  | zeroOrMore
  | oneOrMore
  | zeroOrOne
  | exactly (count : Nat)
  /-- Between two bounds, of which one may be missing. -/
  | between (least most : Option Nat)
deriving DecidableEq, Inhabited

/-- The part of a regular expression between its slashes. -/
inductive Pattern where
  | char (c : Char)
  /-- A backslash and the character after it. -/
  | escaped (c : Char)
  | any
  | lineStart
  | lineEnd
  /-- A class of characters, its body as written between the brackets. -/
  | charClass (negated : Bool) (body : String)
  | group (inner : Pattern)
  | iteration (operand : Pattern) (repetition : Repetition) (greedy : Bool)
  | concat (parts : List Pattern)
  | or (alternatives : List Pattern)
deriving Inhabited

/-- A pattern with its modifiers, as in `/ab+c/is`. -/
structure Regexp where
  pattern : Pattern
  modifiers : String
deriving Inhabited

def bound (n : Option Nat) : String :=
  match n with
  | some n => toString n
  | none => ""

def Repetition.text : Repetition → String
  | zeroOrMore => "*"
  | oneOrMore => "+"
  | zeroOrOne => "?"
  | exactly n => "\x7b" ++ toString n ++ "\x7d"
  | between least most => "\x7b" ++ bound least ++ "," ++ bound most ++ "\x7d"

namespace Pattern

mutual

def text : Pattern → String
  | char c => String.ofList [c]
  | escaped c => String.ofList ['\\', c]
  | any => "."
  | lineStart => "^"
  | lineEnd => "$"
  | charClass negated body => "[" ++ (if negated then "^" else "") ++ body ++ "]"
  | group inner => "(" ++ inner.text ++ ")"
  | iteration operand repetition greedy =>
    operand.text ++ repetition.text ++ (if greedy then "" else "?")
  | concat parts => "".intercalate (texts parts)
  | or alternatives => "|".intercalate (texts alternatives)

def texts : List Pattern → List String
  | [] => []
  | p :: rest => p.text :: texts rest

end

/-- Line anchors, which cannot be repeated. -/
def isAnchor : Pattern → Bool
  | lineStart | lineEnd => true
  | _ => false

end Pattern

namespace Regexp

def text (r : Regexp) : String := "/" ++ r.pattern.text ++ "/" ++ r.modifiers

def isCaseInsensitive (r : Regexp) : Bool := r.modifiers.toList.contains 'i'

def isDotAll (r : Regexp) : Bool := r.modifiers.toList.contains 's'

end Regexp

end YaraRules
