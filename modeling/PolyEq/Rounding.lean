import PolyEq.Decimal

/-! # Rounding to integers and to display precision

A finite float is a signed significand times a power of two, so the integer nearest to it
is found on that pair. A half is rounded away from zero.
-/

namespace PolyEq

namespace Rounding

/-- The natural number nearest to `significand * 2 ^ exponent`, a half going up. -/
def nearestNat (significand : Nat) (exponent : Int) : Nat :=
  if 0 ≤ exponent then significand <<< exponent.toNat
  else (2 * significand + (1 <<< (-exponent).toNat)) / (2 <<< (-exponent).toNat)

/-- The integer nearest to a finite float, a half going away from zero. -/
def nearestInteger (x : Float) : Int :=
  match x.toModel.unpack with
  | .finite sign significand exponent _ => sign.apply (nearestNat significand exponent)
  | _ => 0

def ofInteger (n : Int) : Float :=
  .ofModel (.ofInt n)

/-- Rounds to an integral float and keeps the sign, also of a result that is zero. -/
def toIntegral (x : Float) : Float :=
  match x.toModel.unpack with
  | .finite .positive significand exponent _ => ofInteger (nearestNat significand exponent)
  | .finite .negative significand exponent _ => -ofInteger (nearestNat significand exponent)
  | _ => x

def decimalPlaces : Nat := 6

def toDisplay (x : Float) : Float :=
  let scale := ofInteger (tenPow decimalPlaces)
  toIntegral (x * scale) / scale

end Rounding

end PolyEq
