/-! # Terms

A term is a coefficient times a power of the one unknown.
-/

namespace PolyEq

def unknown : Char := 'X'

/-- The monomial `coefficient * X ^ exponent`. -/
structure Term where
  coefficient : Float
  exponent : UInt64

end PolyEq
