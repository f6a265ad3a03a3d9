import YaraRules.Text.Utf8

/-! Escape sequences of double-quoted text. Writing turns a text into what may
stand between the quotes; reading turns what stands there into bytes, which
need not be UTF-8 because a sequence may name any byte. Source bytes become text
without loss: what is not UTF-8 is written as escape sequences, one for each byte. -/

namespace YaraRules.Text

def hexDigit (n : Nat) : Char :=
  if n < 10 then Char.ofNat (48 + n) else Char.ofNat (87 + n)

/-- Two lowercase hexadecimal digits of a value below 256. -/
def hexPair (n : Nat) : List Char := [hexDigit (n / 16), hexDigit (n % 16)]

/-- How one character is written between double quotes. -/
def escapeChar (c : Char) : List Char :=
  if c == '\\' then ['\\', '\\']
  else if c == '"' then ['\\', '"']
  else if c == '\n' then ['\\', 'n']
  else if c == '\t' then ['\\', 't']
  else if c == '\r' then ['\\', 'r']
  else if c.toNat < 0x20 || c.toNat == 0x7F then '\\' :: 'x' :: hexPair c.toNat
  else [c]

/-- A text as it is written between double quotes. -/
def escape (s : String) : String := String.ofList (s.toList.flatMap escapeChar)

/-- Value of a hexadecimal digit in either case. -/
def hexValue? (b : UInt8) : Option UInt8 :=
  if 0x30 ≤ b && b ≤ 0x39 then some (b - 0x30)
  else if 0x41 ≤ b && b ≤ 0x46 then some (b - 0x37)
  else if 0x61 ≤ b && b ≤ 0x66 then some (b - 0x57)
  else none

/-- Value of the two characters after `\x`. A plus sign may take the place of the first digit. -/
def hexPairValue? (a b : UInt8) : Option UInt8 :=
  if a == 0x2B then hexValue? b
  else do return (← hexValue? a) * 16 + (← hexValue? b)

/-- The byte named by the letter after a backslash. -/
def letterValue? (b : UInt8) : Option UInt8 :=
  if b == 0x5C then some 0x5C
  else if b == 0x22 then some 0x22
  else if b == 0x6E then some 0x0A
  else if b == 0x74 then some 0x09
  else if b == 0x72 then some 0x0D
  else none

/-- Reads escape sequences from `offset` on. Fails with the offset of the first
backslash that starts no sequence. -/
def unescapeFrom (offset : Nat) : Bytes → Except Nat Bytes
  | [] => .ok []
  | 0x5C :: 0x78 :: a :: b :: rest =>
    match hexPairValue? a b with
    | some value => do return value :: (← unescapeFrom (offset + 4) rest)
    | none => .error offset
  | 0x5C :: b :: rest =>
    match letterValue? b with
    | some value => do return value :: (← unescapeFrom (offset + 2) rest)
    | none => .error offset
  | b :: rest =>
    if b == 0x5C then .error offset
    else do return b :: (← unescapeFrom (offset + 1) rest)

/-- Bytes meant by what is written between double quotes. -/
def unescape (s : String) : Except Nat Bytes := unescapeFrom 0 (Bytes.ofText s)

/-- Reads after passing over `skip` bytes; of the passed bytes those at a broken
place, counted by `broken`, are written out. -/
def readableFrom : Nat → Bool → Bytes → List Char
  | _, _, [] => []
  | skip + 1, broken, b :: rest =>
    if broken then '\\' :: 'x' :: hexPair b.toNat ++ readableFrom skip broken rest
    else readableFrom skip broken rest
  | 0, _, b :: rest =>
    match Utf8.first? (b :: rest) with
    | some (c, width) => c :: readableFrom (width - 1) false rest
    | none =>
      '\\' :: 'x' :: hexPair b.toNat ++
        readableFrom (Utf8.brokenWidth (b :: rest) - 1) true rest

/-- Text of the bytes, with `\xNN` for each byte that belongs to no character. -/
def readable (bytes : Bytes) : String := String.ofList (readableFrom 0 false bytes)

end YaraRules.Text
