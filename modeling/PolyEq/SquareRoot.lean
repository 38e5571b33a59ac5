import PolyEq.Tolerance

/-! # Square roots

Newton's iteration, started from a part of the radicand. It stops when two guesses in a row
are within the tolerance, and after a fixed number of steps in any case.
-/

namespace PolyEq

/-- The last guess of the iteration, and whether it met the tolerance. -/
structure SquareRoot where
  value : Float
  converged : Bool

namespace SquareRoot

def maxSteps : Nat := 100

/-- Radicands above this one start from a smaller part of themselves than the half. -/
def largeRadicand : Float := 1e10

def largeDivisor : Float := 1e5

def start (x : Float) : Float :=
  if x > largeRadicand then x / largeDivisor else x / 2

/-- A guess that is safe to divide by. -/
def clamp (guess : Float) : Float :=
  if isNegligible guess then epsilon else guess

def improve (x guess : Float) : Float :=
  0.5 * (guess + x / guess)

def iterate (x : Float) : Nat → Float → SquareRoot
  | 0, guess => ⟨guess, false⟩
  | steps + 1, guess =>
    let guess := clamp guess
    let next := improve x guess
    if isNegligible (next - guess) then ⟨next, true⟩ else iterate x steps next

/-- Negative numbers have the root zero, and numbers below the tolerance are their own roots. -/
def of (x : Float) : SquareRoot :=
  if x ≤ 0 then ⟨0, true⟩
  else if x == 1 then ⟨1, true⟩
  else if x < epsilon then ⟨x, true⟩
  else iterate x maxSteps (start x)

end SquareRoot

def sqrt (x : Float) : Float :=
  (SquareRoot.of x).value

end PolyEq
