import PolyEq.Rounding

/-! # Tolerance

Two numbers closer than the tolerance count as equal. A float within it of an integer
stands for that integer, as long as every integer of that size is a float.
-/

namespace PolyEq

/-- The distance below which two numbers count as equal. -/
def epsilon : Float := 1e-10

/-- `2 ^ 53`, the end of the range in which every integer is a float. -/
def exactLimit : Float := 9007199254740992

def isNegligible (x : Float) : Bool :=
  x.abs < epsilon

def isIntegerLike (x : Float) : Bool :=
  x.isFinite && x.abs ≤ exactLimit && (Rounding.toIntegral x - x).abs < epsilon

def toInteger? (x : Float) : Option Int :=
  if isIntegerLike x then some (Rounding.nearestInteger x) else none

end PolyEq
