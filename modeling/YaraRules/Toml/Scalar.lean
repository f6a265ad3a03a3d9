import YaraRules.Decimal.Style
import YaraRules.Toml.Value

/-! Keys, strings, numbers and dates of TOML. Each reader takes what it reads off the
beginning of a list of characters, and fails if that begins with something else. -/

namespace YaraRules.Toml

def isBlank (c : Char) : Bool := c == ' ' || c == '\t'

/-- Characters that may stand in comments and, unless they are quotes or start an
escape, in strings. -/
def isPlain (c : Char) : Bool := c == '\t' || (' '.toNat ≤ c.toNat && c.toNat != 0x7F)

def skipBlanks (cs : List Char) : List Char := cs.dropWhile isBlank

/-- What follows a line break. -/
def newline? : List Char → Option (List Char)
  | '\n' :: rest => some rest
  | '\r' :: '\n' :: rest => some rest
  | _ => none

/-! ### Strings -/

private def simpleEscape? : Char → Option Char
  | 'b' => some '\x08'
  | 't' => some '\t'
  | 'n' => some '\n'
  | 'f' => some '\x0C'
  | 'r' => some '\r'
  | '"' => some '"'
  | '\\' => some '\\'
  | _ => none

private def hexDigitValue? (c : Char) : Option Nat :=
  if c.isDigit then some (c.toNat - '0'.toNat)
  else if 'a' ≤ c ∧ c ≤ 'f' then some (c.toNat - 'a'.toNat + 10)
  else if 'A' ≤ c ∧ c ≤ 'F' then some (c.toNat - 'A'.toNat + 10)
  else none

/-- The character with a code in hexadecimal. -/
private def scalar? (digits : List Char) : Option Char := do
  let code := (← digits.mapM hexDigitValue?).foldl (fun n d => n * 16 + d) 0
  if code.isValidChar then some (Char.ofNat code) else none

private def consChar (c : Char) (tail : Option (List Char × List Char)) :
    Option (List Char × List Char) :=
  tail.map fun (text, rest) => (c :: text, rest)

/-- The rest of a string after its opening quote. -/
def basicBody : List Char → Option (List Char × List Char)
  | [] => none
  | '"' :: rest => some ([], rest)
  | '\\' :: 'u' :: a :: b :: c :: d :: rest =>
    (scalar? [a, b, c, d]).bind fun x => consChar x (basicBody rest)
  | '\\' :: 'U' :: a :: b :: c :: d :: e :: f :: g :: h :: rest =>
    (scalar? [a, b, c, d, e, f, g, h]).bind fun x => consChar x (basicBody rest)
  | '\\' :: x :: rest => (simpleEscape? x).bind fun x => consChar x (basicBody rest)
  | c :: rest => if isPlain c && c != '\\' then consChar c (basicBody rest) else none

/-- Closing quotes in threes may have one or two more before them, which belong to the text. -/
private def closing (quote : Char) : List Char → List Char × List Char
  | a :: b :: rest =>
    if a == quote && b == quote then ([a, b], rest)
    else if a == quote then ([a], b :: rest)
    else ([], a :: b :: rest)
  | [a] => if a == quote then ([a], []) else ([], [a])
  | [] => ([], [])

/-- The rest of a string in triple quotes. White space is passed over while `skipping`,
which a backslash at the end of a line starts. -/
def multilineBody (skipping : Bool) : List Char → Option (List Char × List Char)
  | [] => none
  | '"' :: '"' :: '"' :: rest => some (closing '"' rest)
  | '\r' :: '\n' :: rest =>
    if skipping then multilineBody true rest else consChar '\n' (multilineBody false rest)
  | '\n' :: rest =>
    if skipping then multilineBody true rest else consChar '\n' (multilineBody false rest)
  | '\\' :: 'u' :: a :: b :: c :: d :: rest =>
    (scalar? [a, b, c, d]).bind fun x => consChar x (multilineBody false rest)
  | '\\' :: 'U' :: a :: b :: c :: d :: e :: f :: g :: h :: rest =>
    (scalar? [a, b, c, d, e, f, g, h]).bind fun x => consChar x (multilineBody false rest)
  | '\\' :: x :: rest =>
    if (newline? (skipBlanks (x :: rest))).isSome then multilineBody true (x :: rest)
    else (simpleEscape? x).bind fun x => consChar x (multilineBody false rest)
  | c :: rest =>
    if skipping && isBlank c then multilineBody true rest
    else if isPlain c && c != '\\' then consChar c (multilineBody false rest)
    else none

/-- The rest of a string without escapes after its opening quote. -/
def literalBody : List Char → Option (List Char × List Char)
  | [] => none
  | '\'' :: rest => some ([], rest)
  | c :: rest => if isPlain c then consChar c (literalBody rest) else none

/-- The rest of a string without escapes in triple quotes. -/
def multilineLiteralBody : List Char → Option (List Char × List Char)
  | [] => none
  | '\'' :: '\'' :: '\'' :: rest => some (closing '\'' rest)
  | '\r' :: '\n' :: rest => consChar '\n' (multilineLiteralBody rest)
  | '\n' :: rest => consChar '\n' (multilineLiteralBody rest)
  | c :: rest => if isPlain c then consChar c (multilineLiteralBody rest) else none

/-- A line break right after opening triple quotes does not belong to the text. -/
private def afterOpening (cs : List Char) : List Char := (newline? cs).getD cs

def string? (cs : List Char) : Option (String × List Char) :=
  let body :=
    match cs with
    | '"' :: '"' :: '"' :: rest => multilineBody false (afterOpening rest)
    | '"' :: rest => basicBody rest
    | '\'' :: '\'' :: '\'' :: rest => multilineLiteralBody (afterOpening rest)
    | '\'' :: rest => literalBody rest
    | _ => none
  body.map fun (text, rest) => (String.ofList text, rest)

/-! ### Keys -/

private def isBare (c : Char) : Bool := c.isAlphanum || c == '_' || c == '-'

/-- One part of a key. -/
def keyPart? (cs : List Char) : Option (String × List Char) :=
  match cs with
  | '"' :: rest => (basicBody rest).map fun (text, rest) => (String.ofList text, rest)
  | '\'' :: rest => (literalBody rest).map fun (text, rest) => (String.ofList text, rest)
  | _ =>
    match cs.takeWhile isBare with
    | [] => none
    | name => some (String.ofList name, cs.dropWhile isBare)

/-- Parts of a key with dots between them, at most `fuel` of them. -/
def keyParts? : Nat → List Char → Option (List String × List Char)
  | 0, _ => none
  | fuel + 1, cs => do
    let (part, rest) ← keyPart? (skipBlanks cs)
    match skipBlanks rest with
    | '.' :: rest => do
      let (parts, rest) ← keyParts? fuel rest
      return (part :: parts, rest)
    | rest => return ([part], rest)

/-- Keys and values stay below this depth. -/
def depthLimit : Nat := 80

/-- A key as the path of its first parts and the last part. -/
def key? (cs : List Char) : Option ((List String × String) × List Char) := do
  let (parts, rest) ← keyParts? (depthLimit - 1) cs
  return ((parts.dropLast, ← parts.getLast?), rest)

/-! ### Numbers -/

/-- Digits that follow a first one; an underscore may stand between two digits. -/
private def moreDigits (isDigit : Char → Bool) : List Char → List Char × List Char
  | '_' :: c :: rest =>
    if isDigit c then
      let (digits, rest) := moreDigits isDigit rest
      (c :: digits, rest)
    else ([], '_' :: c :: rest)
  | c :: rest =>
    if isDigit c then
      let (digits, rest) := moreDigits isDigit rest
      (c :: digits, rest)
    else ([], c :: rest)
  | [] => ([], [])

/-- One digit at least. -/
private def digits? (isDigit : Char → Bool) : List Char → Option (List Char × List Char)
  | c :: rest =>
    if isDigit c then
      let (digits, rest) := moreDigits isDigit rest
      some (c :: digits, rest)
    else none
  | [] => none

private def number (base : Nat) (digits : List Char) : Nat :=
  digits.foldl (fun n c => n * base + (hexDigitValue? c).getD 0) 0

/-- Decimal digits without a leading zero. -/
private def decimal? : List Char → Option (List Char × List Char)
  | '0' :: rest => some (['0'], rest)
  | cs => digits? Char.isDigit cs

private def sign : List Char → Bool × List Char
  | '+' :: rest => (false, rest)
  | '-' :: rest => (true, rest)
  | rest => (false, rest)

/-- Integers take 64 bits, one of them for the sign. -/
private def integerLimit : Nat := 0x8000000000000000

private def inBase? (base : Nat) (isDigit : Char → Bool) (cs : List Char) :
    Option (Value × List Char) := do
  let (digits, rest) ← digits? isDigit cs
  let n := number base digits
  if n < integerLimit then some (.integer n, rest) else none

def integer? : List Char → Option (Value × List Char)
  | '0' :: 'x' :: rest => inBase? 16 (fun c => (hexDigitValue? c).isSome) rest
  | '0' :: 'o' :: rest => inBase? 8 (fun c => '0' ≤ c && c ≤ '7') rest
  | '0' :: 'b' :: rest => inBase? 2 (fun c => c == '0' || c == '1') rest
  | cs => do
    let (negative, cs) := sign cs
    let (digits, rest) ← decimal? cs
    let n : Int := number 10 digits
    let n := if negative then -n else n
    if -integerLimit ≤ n ∧ n < integerLimit then some (.integer n, rest) else none

private def fraction? : List Char → Option (List Char × List Char)
  | '.' :: rest => digits? Char.isDigit rest
  | _ => none

private def exponent? : List Char → Option (Int × List Char)
  | c :: rest =>
    if c == 'e' || c == 'E' then do
      let (negative, rest) := sign rest
      let (digits, rest) ← digits? Char.isDigit rest
      let n : Int := number 10 digits
      return (if negative then -n else n, rest)
    else none
  | [] => none

private def infinityBits : UInt64 := 0x7FF0000000000000

private def signBit (negative : Bool) : UInt64 := if negative then 0x8000000000000000 else 0

/-- The nearest binary64 number. Far outside its range no power of ten is computed. -/
private def magnitudeBits (digits : List Char) (exponent : Int) : UInt64 :=
  let size := (digits.dropWhile (· == '0')).length
  if size == 0 then 0
  else if 400 < exponent + size then infinityBits
  else if exponent + size < -400 then 0
  else Decimal.bitsOfScaled (number 10 digits) exponent

/-- A number with a fraction or an exponent. One that is too large is refused. -/
private def finite? (cs : List Char) : Option (Value × List Char) := do
  let (negative, cs) := sign cs
  let (whole, rest) ← decimal? cs
  let (places, exponent, rest) ← match fraction? rest, exponent? rest with
    | some (places, rest), _ =>
      match exponent? rest with
      | some (exponent, rest) => some (places, exponent, rest)
      | none => some (places, 0, rest)
    | none, some (exponent, rest) => some ([], exponent, rest)
    | none, none => none
  let magnitude := magnitudeBits (whole ++ places) (exponent - places.length)
  if !negative && magnitude == infinityBits then none
  else some (.float (signBit negative ||| magnitude), rest)

private def special? (cs : List Char) : Option (Value × List Char) :=
  match sign cs with
  | (negative, 'i' :: 'n' :: 'f' :: rest) => some (.float (signBit negative ||| infinityBits), rest)
  | (negative, 'n' :: 'a' :: 'n' :: rest) =>
    some (.float (signBit negative ||| 0x7FF8000000000000), rest)
  | _ => none

/-- A number, as an integer only if it has neither a fraction nor an exponent. -/
def number? (cs : List Char) : Option (Value × List Char) :=
  (finite? cs).or ((special? cs).or (integer? cs))

/-! ### Dates and times -/

/-- Exactly `count` digits, as a number in the given bounds. -/
private def field? (count low high : Nat) (cs : List Char) : Option (Nat × List Char) :=
  let digits := cs.take count
  let n := number 10 digits
  if digits.length == count && digits.all Char.isDigit && low ≤ n && n ≤ high then
    some (n, cs.drop count)
  else none

private def char? (c : Char) : List Char → Option (List Char)
  | d :: rest => if d == c then some rest else none
  | [] => none

private def daysIn (year month : Nat) : Nat :=
  if month == 2 then
    if year % 4 == 0 && (year % 100 != 0 || year % 400 == 0) then 29 else 28
  else if [4, 6, 9, 11].contains month then 30
  else 31

private def date? (cs : List Char) : Option (List Char) := do
  let (year, cs) ← field? 4 0 9999 cs
  let (month, cs) ← field? 2 1 12 (← char? '-' cs)
  let (_, cs) ← field? 2 1 (daysIn year month) (← char? '-' cs)
  return cs

private def time? (cs : List Char) : Option (List Char) := do
  let (_, cs) ← field? 2 0 23 cs
  let (_, cs) ← field? 2 0 59 (← char? ':' cs)
  let (_, cs) ← field? 2 0 60 (← char? ':' cs)
  match cs with
  | '.' :: c :: rest => if c.isDigit then return rest.dropWhile Char.isDigit else return cs
  | _ => return cs

private def zone? : List Char → Option (List Char)
  | 'Z' :: rest | 'z' :: rest => some rest
  | '+' :: rest | '-' :: rest => do
    let (_, rest) ← field? 2 0 23 rest
    let (_, rest) ← field? 2 0 59 (← char? ':' rest)
    return rest
  | _ => none

/-- The time that may follow a date. -/
private def timeAfterDate? : List Char → Option (List Char)
  | 'T' :: rest | 't' :: rest | ' ' :: rest => do
    let rest ← time? rest
    return (zone? rest).getD rest
  | _ => none

def datetime? (cs : List Char) : Option (Value × List Char) := do
  let rest ← match date? cs with
    | some rest => some ((timeAfterDate? rest).getD rest)
    | none => time? cs
  return (.datetime (String.ofList (cs.take (cs.length - rest.length))), rest)

end YaraRules.Toml
