/-! Bytes and the text they stand for. A source file is a list of bytes that need
not be valid UTF-8; its text is read with a replacement character in place of
each broken sequence. -/

namespace YaraRules

abbrev Bytes := List UInt8

namespace Utf8

/-- Bytes of a text. -/
def encode (text : List Char) : Bytes := text.flatMap String.utf8EncodeChar

/-- A byte that can only continue a character. -/
def isTail (b : UInt8) : Bool := 0x80 ≤ b && b ≤ 0xBF

/-- Lead byte `a` of three admits `b` as its second byte: neither overlong nor a surrogate. -/
def second3 (a b : UInt8) : Bool :=
  if a == 0xE0 then 0xA0 ≤ b && b ≤ 0xBF
  else if a == 0xED then 0x80 ≤ b && b ≤ 0x9F
  else 0xE1 ≤ a && a ≤ 0xEF && isTail b

/-- Lead byte `a` of four admits `b` as its second byte: neither overlong nor above U+10FFFF. -/
def second4 (a b : UInt8) : Bool :=
  if a == 0xF0 then 0x90 ≤ b && b ≤ 0xBF
  else if a == 0xF4 then 0x80 ≤ b && b ≤ 0x8F
  else 0xF1 ≤ a && a ≤ 0xF3 && isTail b

def low (b : UInt8) (bits : Nat) : Nat := b.toNat % (1 <<< bits)

/-- The character that the bytes start with and the number of bytes it takes. -/
def first? : Bytes → Option (Char × Nat)
  | [] => none
  | a :: rest =>
    if a < 0x80 then some (Char.ofNat a.toNat, 1)
    else if a < 0xE0 then
      match rest with
      | b :: _ =>
        if 0xC2 ≤ a && isTail b then some (Char.ofNat (low a 5 * 64 + low b 6), 2) else none
      | [] => none
    else if a < 0xF0 then
      match rest with
      | b :: c :: _ =>
        if second3 a b && isTail c then
          some (Char.ofNat (low a 4 * 4096 + low b 6 * 64 + low c 6), 3)
        else none
      | _ => none
    else
      match rest with
      | b :: c :: d :: _ =>
        if second4 a b && isTail c && isTail d then
          some (Char.ofNat (low a 3 * 262144 + low b 6 * 4096 + low c 6 * 64 + low d 6), 4)
        else none
      | _ => none

/-- Length of the longest beginning of a character at the head of bytes that start
with no whole character; one replacement character stands for all of it. -/
def brokenWidth : Bytes → Nat
  | a :: b :: c :: _ =>
    if second4 a b && isTail c then 3 else if second3 a b || second4 a b then 2 else 1
  | [a, b] => if second3 a b || second4 a b then 2 else 1
  | _ => 1

/-- What stands for a broken sequence. -/
def replacement : Char := '\uFFFD'

/-- Decodes after passing over `skip` bytes that are already accounted for. -/
def decodeFrom : Nat → Bytes → List Char
  | _, [] => []
  | skip + 1, _ :: rest => decodeFrom skip rest
  | 0, b :: rest =>
    match first? (b :: rest) with
    | some (c, width) => c :: decodeFrom (width - 1) rest
    | none => replacement :: decodeFrom (brokenWidth (b :: rest) - 1) rest

/-- Text of the bytes, each broken sequence read as the replacement character. -/
def decode (bytes : Bytes) : List Char := decodeFrom 0 bytes

/-- True if `decodeFrom` meets no broken sequence. -/
def validFrom : Nat → Bytes → Bool
  | _, [] => true
  | skip + 1, _ :: rest => validFrom skip rest
  | 0, b :: rest =>
    match first? (b :: rest) with
    | some (_, width) => validFrom (width - 1) rest
    | none => false

def valid (bytes : Bytes) : Bool := validFrom 0 bytes

end Utf8

/-- Text of the bytes, with a replacement character for what is not UTF-8. -/
def Bytes.toText (bytes : Bytes) : String := String.ofList (Utf8.decode bytes)

/-- Bytes of the text in UTF-8. -/
def Bytes.ofText (text : String) : Bytes := Utf8.encode text.toList

end YaraRules
