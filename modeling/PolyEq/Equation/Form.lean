import PolyEq.Decimal.Display
import PolyEq.Equation
import PolyEq.Text.Sum

/-! # The reduced form

An equation is written with its significant terms in ascending order, signs folded into
the operators between them. Without such a term it is `0 = 0`.
-/

namespace PolyEq

def Term.text (t : Term) : List Char :=
  let coefficient := Display.numberText t.coefficient
  if t.exponent = 0 then coefficient
  else if t.exponent = 1 then coefficient ++ " * ".toList ++ [unknown]
  else coefficient ++ " * ".toList ++ unknown :: '^' :: Nat.toDigits 10 t.exponent.toNat

namespace Equation

def formText (e : Equation) : List Char :=
  match e.terms.filter Term.isSignificant with
  | [] => "0 = 0".toList
  | terms => sumText (terms.map Term.text) ++ " = 0".toList

/-- The reduced form of an equation, whether or not it has been reduced. -/
def form (e : Equation) : String := .ofList e.formText

end Equation

end PolyEq
