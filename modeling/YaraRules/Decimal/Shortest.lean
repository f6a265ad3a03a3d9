/-! The fewest decimal digits that identify a binary64 number. The reals that
round to the number form an interval; among the decimals inside it one with the
fewest digits is taken, and of those the nearest. All comparisons are exact, on
naturals. -/

namespace YaraRules.Decimal

/-- A finite number without its sign, `significand * 2 ^ exponent`. -/
structure Binary where
  significand : Nat
  exponent : Int
  /-- The number below is half as far away as the number above. -/
  narrowBelow : Bool

/-- Magnitude of the finite number with these bits. -/
def Binary.ofBits (bits : UInt64) : Binary :=
  let biased := ((bits >>> 52) &&& 0x7FF).toNat
  let fraction := (bits &&& 0xFFFFFFFFFFFFF).toNat
  if biased == 0 then ⟨fraction, -1074, false⟩
  else ⟨0x10000000000000 + fraction, (biased : Int) - 1075, fraction == 0 && biased > 1⟩

/-- `digits * 10 ^ exponent`. -/
structure Scaled where
  digits : Nat
  exponent : Int
deriving DecidableEq

/-- Compares `a * 10 ^ i` with `n * 2 ^ j`. -/
def compareScaled (a : Nat) (i : Int) (n : Nat) (j : Int) : Ordering :=
  compare (a * Nat.pow 10 i.toNat <<< (-j).toNat) (n * Nat.pow 10 (-i).toNat <<< j.toNat)

/-- The decimal lies among the reals that round to `x`. The ends of their interval belong to
it when the significand is even. -/
def Binary.identifies (x : Binary) (d : Scaled) : Bool :=
  let below := if x.narrowBelow then 4 * x.significand - 1 else 4 * x.significand - 2
  let above := 4 * x.significand + 2
  let closed := x.significand % 2 == 0
  let atLow := compareScaled d.digits d.exponent below (x.exponent - 2)
  let atHigh := compareScaled d.digits d.exponent above (x.exponent - 2)
  (atLow == .gt || (closed && atLow == .eq)) && (atHigh == .lt || (closed && atHigh == .eq))

/-- Decimal exponent `k` with `10 ^ (k - 1) ≤ x < 10 ^ k`, found upwards from a lower bound. -/
def Binary.scaleFrom (x : Binary) : Nat → Int → Int
  | 0, k => k
  | fuel + 1, k =>
    if compareScaled 1 k x.significand x.exponent == .gt then k else x.scaleFrom fuel (k + 1)

/-- Three tenths of the binary logarithm is at most two below the scale. -/
def Binary.scale (x : Binary) : Int :=
  let log2 := (x.significand.log2 : Int) + x.exponent
  x.scaleFrom 30 (Int.fdiv (log2 * 30102) 100000 - 2)

/-- Floor of `x / 10 ^ grid`. -/
def Binary.floorAt (x : Binary) (grid : Int) : Nat :=
  (x.significand * Nat.pow 10 (-grid).toNat <<< x.exponent.toNat) /
    (Nat.pow 10 grid.toNat <<< (-x.exponent).toNat)

/-- The neighbour of `x` on the grid that identifies it, the nearer if both do. A tie goes up. -/
def Binary.onGrid? (x : Binary) (grid : Int) : Option Scaled :=
  let low := x.floorAt grid
  let down : Scaled := ⟨low, grid⟩
  let up : Scaled := ⟨low + 1, grid⟩
  match x.identifies down, x.identifies up with
  | true, true =>
    if compareScaled (2 * low + 1) grid (2 * x.significand) x.exponent == .gt then some down
    else some up
  | true, false => some down
  | false, true => some up
  | false, false => none

/-- The exact value, written with as many digits as it takes. -/
def Binary.exact (x : Binary) : Scaled :=
  ⟨x.significand * Nat.pow 5 (-x.exponent).toNat <<< x.exponent.toNat, min x.exponent 0⟩

/-- Moves trailing zeros of the digits into the exponent. -/
def Scaled.strip : Nat → Scaled → Scaled
  | 0, d => d
  | fuel + 1, d =>
    if d.digits != 0 && d.digits % 10 == 0 then strip fuel ⟨d.digits / 10, d.exponent + 1⟩ else d

/-- Shortest decimal that identifies the number, which is not zero. -/
def Binary.shortest (x : Binary) : Scaled :=
  let scale := x.scale
  let found := (List.range 17).findSome? fun (n : Nat) => x.onGrid? (scale - (n + 1))
  (found.getD x.exact).strip 20

end YaraRules.Decimal
