import YaraRules.Decimal.Shortest

/-! Text of a binary64 number: the fewest digits that identify it, positional for
moderate magnitudes and with an exponent outside them. -/

namespace YaraRules.Decimal

/-- Decisions of the written form. -/
structure Style where
  /-- Least exponent of the leading digit that is written positionally. -/
  plainFrom : Int
  /-- Least exponent of the leading digit above that which is not. -/
  plainBelow : Int
  nan : String
  infinity : String

private def zeros (n : Nat) : String := String.ofList (List.replicate n '0')

/-- Lays out a non-zero magnitude. An integral value keeps `.0` in positional form only. -/
def Style.layout (n : Style) (d : Scaled) : String :=
  let digits := (Nat.toDigits 10 d.digits)
  let lead : Int := d.exponent + digits.length - 1
  if n.plainFrom ≤ lead && lead < n.plainBelow then
    if d.exponent ≥ 0 then String.ofList digits ++ zeros d.exponent.toNat ++ ".0"
    else if lead ≥ 0 then
      let whole := digits.length - d.exponent.natAbs
      String.ofList (digits.take whole) ++ "." ++ String.ofList (digits.drop whole)
    else "0." ++ zeros (-lead - 1).toNat ++ String.ofList digits
  else
    let mantissa :=
      match digits with
      | first :: second :: rest => String.ofList (first :: '.' :: second :: rest)
      | short => String.ofList short
    let sign := if lead < 0 then "-" else ""
    mantissa ++ "e" ++ sign ++ String.ofList (Nat.toDigits 10 lead.natAbs)

/-- Text of the number with these bits. -/
def Style.render (n : Style) (bits : UInt64) : String :=
  let sign := if bits >>> 63 == 1 then "-" else ""
  let magnitude := bits &&& 0x7FFFFFFFFFFFFFFF
  if magnitude > 0x7FF0000000000000 then n.nan
  else if magnitude == 0x7FF0000000000000 then sign ++ n.infinity
  else if magnitude == 0 then sign ++ "0.0"
  else sign ++ n.layout (Binary.ofBits magnitude).shortest

/-- Float literals are positional from 0.0001 up to below 10^16. -/
def literalStyle : Style where
  plainFrom := -4
  plainBelow := 16
  nan := "NaN"
  infinity := "inf"

/-- Bits of the number nearest to `digits * 10 ^ exponent`, ties to even. -/
def bitsOfScaled (digits : Nat) (exponent : Int) : UInt64 :=
  (Float.ofScientific digits (exponent < 0) exponent.natAbs).toBits

end YaraRules.Decimal
