/-! White space beyond ASCII: the Unicode property White_Space, 25 characters. -/

namespace YaraRules.Text

/-- Closed ranges of code points, ascending and apart. -/
def blankRanges : List (Nat × Nat) :=
  [(0x09, 0x0D), (0x20, 0x20), (0x85, 0x85), (0xA0, 0xA0), (0x1680, 0x1680), (0x2000, 0x200A),
   (0x2028, 0x2029), (0x202F, 0x202F), (0x205F, 0x205F), (0x3000, 0x3000)]

def within (ranges : List (Nat × Nat)) (code : Nat) : Bool :=
  ranges.any fun range => range.1 ≤ code && code ≤ range.2

def isBlank (c : Char) : Bool := within blankRanges c.toNat

/-- Drops the blanks a text ends with. -/
def trimEnd (s : String) : String :=
  String.ofList (s.toList.reverse.dropWhile isBlank).reverse

/-- Drops every occurrence of `c` at both ends. -/
def trimChar (c : Char) (s : String) : String :=
  String.ofList ((s.toList.dropWhile (· == c)).reverse.dropWhile (· == c)).reverse

end YaraRules.Text
