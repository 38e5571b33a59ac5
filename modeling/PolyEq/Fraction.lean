import PolyEq.Decimal

/-! # Fractions of 64-bit integers

A quotient of two integers in lowest terms, refused when its parts do not fit into 64
bits with a sign.
-/

namespace PolyEq

inductive FractionError where
  | zeroDenominator
  | overflow (numerator denominator : Int)
  deriving DecidableEq, Repr

def FractionError.message : FractionError → String
  | zeroDenominator => "denominator cannot be zero"
  | overflow n d => s!"fraction {n}/{d} cannot be reduced within 64-bit integers"

namespace Fraction

def fitsWord (n : Int) : Bool :=
  Int64.minValue.toInt ≤ n && n ≤ Int64.maxValue.toInt

/-- The fraction `numerator / denominator` in lowest terms. -/
def reduce (numerator denominator : Int) : Except FractionError Rat :=
  if denominator = 0 then .error .zeroDenominator
  else
    let q := Rat.divInt numerator denominator
    if fitsWord q.num && fitsWord q.den then .ok q
    else .error (.overflow numerator denominator)

/-- `n/d`, or `n` alone for an integer. -/
def text (q : Rat) : List Char :=
  if q.den = 1 then integerText q.num
  else integerText q.num ++ '/' :: Nat.toDigits 10 q.den

def display (q : Rat) : String := .ofList (text q)

end Fraction

end PolyEq
