import YaraRules.Text.DecimalDigit
import YaraRules.Text.Utf8

/-! Classes of tokens that are not written in one way only. Each function gives the
length of the longest token of its class that the bytes start with. Inside
comments, strings and regular expressions a repeated byte may be anything; a
character in a fixed place has to be whole. -/

namespace YaraRules.Lexer

def isAlpha (b : UInt8) : Bool := (0x41 ≤ b && b ≤ 0x5A) || (0x61 ≤ b && b ≤ 0x7A)

def isDigit (b : UInt8) : Bool := 0x30 ≤ b && b ≤ 0x39

def isHexDigit (b : UInt8) : Bool :=
  isDigit b || (0x41 ≤ b && b ≤ 0x46) || (0x61 ≤ b && b ≤ 0x66)

def isOctalDigit (b : UInt8) : Bool := 0x30 ≤ b && b ≤ 0x37

/-- Bytes at the head that satisfy `p`. -/
def run (p : UInt8 → Bool) (bytes : Bytes) : Nat := (bytes.takeWhile p).length

/-- Length of at least one byte that satisfies `p`. -/
def run1? (p : UInt8 → Bool) (bytes : Bytes) : Option Nat :=
  match run p bytes with
  | 0 => none
  | n => some n

/-- Length of `text` if the bytes start with it. -/
def fixed? (text : Bytes) (bytes : Bytes) : Option Nat :=
  if text.isPrefixOf bytes then some text.length else none

/-- Length of a run of letters, underscores and decimal digits of any script, after
`skip` bytes that already belong to it. -/
def wordFrom : Nat → Bytes → Nat
  | _, [] => 0
  | skip + 1, _ :: rest => wordFrom skip rest + 1
  | 0, b :: rest =>
    if isAlpha b || b == 0x5F then wordFrom 0 rest + 1
    else
      match Utf8.first? (b :: rest) with
      | some (c, width) =>
        if Text.isDecimalDigit c then wordFrom (width - 1) rest + 1 else 0
      | none => 0

/-- An identifier: a letter or an underscore, then more of them and digits. -/
def identifier? : Bytes → Option Nat
  | b :: rest => if isAlpha b || b == 0x5F then some (wordFrom 0 rest + 1) else none
  | [] => none

/-- A sigil and any number of identifier characters. -/
def sigil? (sigil : UInt8) : Bytes → Option Nat
  | b :: rest => if b == sigil then some (wordFrom 0 rest + 1) else none
  | [] => none

/-- A string name that ends in an asterisk. -/
def wildcard? (bytes : Bytes) : Option Nat := do
  let length ← sigil? 0x24 bytes
  if (bytes.drop length).head? == some 0x2A then some (length + 1) else none

/-- Digits, a dot and digits. -/
def float? (bytes : Bytes) : Option Nat := do
  let whole ← run1? isDigit bytes
  match bytes.drop whole with
  | 0x2E :: rest => return whole + 1 + (← run1? isDigit rest)
  | _ => none

/-- A number in another base after its two-byte mark. -/
def based? (mark : UInt8) (p : UInt8 → Bool) : Bytes → Option Nat
  | 0x30 :: m :: rest => if m == mark then (run1? p rest).map (· + 2) else none
  | _ => none

/-- A decimal number with an optional unit of kilobytes or megabytes. -/
def decimal? (units : Bool) (bytes : Bytes) : Option Nat := do
  let digits ← run1? isDigit bytes
  match bytes.drop digits with
  | u :: 0x42 :: _ => return if units && (u == 0x4B || u == 0x4D) then digits + 2 else digits
  | _ => return digits

/-- An integer in any of its forms. The marks of the bases follow a lone zero, so
the based form is the longer one where there is one. -/
def integer? (units : Bool) (bytes : Bytes) : Option Nat :=
  (based? 0x78 isHexDigit bytes).or ((based? 0x6F isOctalDigit bytes).or (decimal? units bytes))

/-- Length of the rest of a string up to its closing quote. -/
def stringFrom : Nat → Bytes → Option Nat
  | _, [] => none
  | skip + 1, _ :: rest => (stringFrom skip rest).map (· + 1)
  | 0, b :: rest =>
    if b == 0x22 then some 1
    else if b == 0x0A then none
    else if b == 0x5C then
      match Utf8.first? rest with
      | some (c, width) => if c == '\n' then none else (stringFrom width rest).map (· + 1)
      | none => none
    else (stringFrom 0 rest).map (· + 1)

/-- A string between double quotes on one line. -/
def string? : Bytes → Option Nat
  | 0x22 :: rest => (stringFrom 0 rest).map (· + 1)
  | _ => none

/-- Where the reading of a regular expression can stand; several at a time, because a
backslash in first place may stand for itself. -/
structure RegexpState where
  /-- Between two characters of the body. -/
  body : Bool := false
  /-- After a backslash that escapes the next character. -/
  escape : Bool := false
  /-- After the closing slash and this many modifiers. -/
  closed : Option Nat := none

namespace RegexpState

def isDead (s : RegexpState) : Bool := !s.body && !s.escape && s.closed.isNone

/-- State after byte `b`. `whole` tells that a whole character starts there and that it
is no line feed. -/
def step (s : RegexpState) (b : UInt8) (whole : Bool) : RegexpState where
  body := (s.body && b != 0x5C && b != 0x2F && b != 0x0A) || (s.escape && whole)
  escape := s.body && b == 0x5C
  closed :=
    if s.body && b == 0x2F then some 0
    else match s.closed with
      | some n => if n < 2 && isAlpha b then some (n + 1) else none
      | none => none

end RegexpState

/-- Length of a regular expression of which `length` bytes are read. A reading that goes on
into the body gives up what was closed before; one that stops right there keeps it. -/
def regexpFrom (s : RegexpState) (length : Nat) (best : Option Nat) : Bytes → Option Nat
  | [] => best
  | b :: rest =>
    let whole := match Utf8.first? (b :: rest) with
      | some (c, _) => c != '\n'
      | none => false
    let s := s.step b whole
    if s.isDead then best
    else
      let best := if s.closed.isSome then some (length + 1) else if s.body then none else best
      regexpFrom s (length + 1) best rest

/-- A regular expression between slashes with up to two modifiers. Its body starts
with neither an asterisk nor a slash, which start comments. -/
def regexp? : Bytes → Option Nat
  | 0x2F :: b :: rest =>
    if b == 0x2A || b == 0x2F then none
    else if b == 0x5C then regexpFrom { body := true, escape := true } 2 none rest
    else if (Utf8.first? (b :: rest)).isSome then regexpFrom { body := true } 2 none rest
    else none
  | _ => none

/-- Length of the rest of a block comment. `star` tells that the last character was an
asterisk that may close it. With `pairs` an asterisk after such an asterisk
takes no part in closing. -/
def blockFrom (pairs : Bool) (star : Bool) : Bytes → Option Nat
  | [] => none
  | b :: rest =>
    if star then
      if b == 0x2F then some 1
      else if b == 0x2A then (blockFrom pairs (!pairs) rest).map (· + 1)
      else if (Utf8.first? (b :: rest)).isSome then (blockFrom pairs false rest).map (· + 1)
      else none
    else (blockFrom pairs (b == 0x2A) rest).map (· + 1)

def blockComment? (pairs : Bool) : Bytes → Option Nat
  | 0x2F :: 0x2A :: rest => (blockFrom pairs false rest).map (· + 2)
  | _ => none

/-- A comment up to the end of the line. -/
def lineComment? : Bytes → Option Nat
  | 0x2F :: 0x2F :: rest => some (run (fun b => b != 0x0A && b != 0x0D) rest + 2)
  | _ => none

def blanks? (bytes : Bytes) : Option Nat := run1? (fun b => b == 0x20 || b == 0x09) bytes

def newLine? : Bytes → Option Nat
  | 0x0D :: 0x0A :: _ => some 2
  | 0x0D :: _ => some 1
  | 0x0A :: _ => some 1
  | _ => none

def isNibble (b : UInt8) : Bool := isHexDigit b || b == 0x3F

/-- Two hexadecimal digits or question marks, negated by a tilde. -/
def hexByte? : Bytes → Option Nat
  | 0x7E :: a :: b :: _ => if isNibble a && isNibble b then some 3 else none
  | a :: b :: _ => if isNibble a && isNibble b then some 2 else none
  | _ => none

end YaraRules.Lexer
