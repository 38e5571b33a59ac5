/-! # Positional decimals

A decimal is a whole number of units of a power of ten, written with a point and
without an exponent. Its value as a binary64 number is the nearest one, and its
text shows exactly the digits it holds.
-/

namespace PolyEq

def tenPow (n : Nat) : Nat :=
  Nat.pow 10 n

/-- The number `digits / 10 ^ places`. -/
structure Decimal where
  digits : Nat
  places : Nat
  deriving DecidableEq, Repr

namespace Decimal

/-- The binary64 number nearest to `digits * 10 ^ exponent`, a tie going to the even significand. -/
def nearestFloat (digits : Nat) (exponent : Int) : Float :=
  .ofModel (.ofScientific digits exponent)

def toFloat (d : Decimal) : Float :=
  nearestFloat d.digits (-(d.places : Int))

/-- The digits before the point, then the point and exactly `places` digits if there are any. -/
def text (d : Decimal) : List Char :=
  let whole := Nat.toDigits 10 (d.digits / tenPow d.places)
  if d.places = 0 then whole
  else whole ++ '.' :: (Nat.toDigits 10 (d.digits % tenPow d.places)).leftpad d.places '0'

end Decimal

/-- The digits of an integer, after a minus sign if it is negative. -/
def integerText (n : Int) : List Char :=
  if n < 0 then '-' :: Nat.toDigits 10 n.natAbs else Nat.toDigits 10 n.natAbs

end PolyEq
