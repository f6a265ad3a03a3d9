/-! Feature sets. They select the optional modules and symbols that are visible. -/

namespace YaraRules

structure Features where
  /-- What every scanner knows. -/
  basic : Bool := false
  avast : Bool := false
  virusTotal : Bool := false
  /-- Symbols that were removed and can still be enabled. -/
  deprecated : Bool := false
deriving DecidableEq, Inhabited

namespace Features

/-- All that is in use today. -/
def current : Features where
  basic := true
  avast := true
  virusTotal := true

def everything : Features := { current with deprecated := true }

private def bit (flag : Bool) (weight : Nat) : Nat := if flag then weight else 0

/-- The set as a bit mask. -/
def bits (f : Features) : Nat :=
  bit f.basic 1 + bit f.avast 2 + bit f.virusTotal 4 + bit f.deprecated 8

/-- The set with the given bit mask. -/
def ofBits (mask : Nat) : Features where
  basic := mask.testBit 0
  avast := mask.testBit 1
  virusTotal := mask.testBit 2
  deprecated := mask.testBit 3

/-- True if the two sets share a feature. -/
def intersects (f g : Features) : Bool :=
  f.basic && g.basic || f.avast && g.avast || f.virusTotal && g.virusTotal ||
    f.deprecated && g.deprecated

end Features

end YaraRules
