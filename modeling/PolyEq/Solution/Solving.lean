import PolyEq.Equation.Form
import PolyEq.Fraction
import PolyEq.Solution
import PolyEq.SquareRoot

/-! # Solving

Equations up to the second degree are solved in floating point. Beside the floats an exact
form is worked out in integers, from values that are within the tolerance of an integer. A
solution that holds an infinity or a NaN is out of range.
-/

namespace PolyEq

namespace Solution

def exactRatio? (numerator denominator : Float) : Option Rat := do
  (Fraction.reduce (← toInteger? numerator) (← toInteger? denominator)).toOption

def Root.ofRatio (numerator denominator : Float) : Root :=
  let quotient := numerator / denominator
  match exactRatio? numerator denominator with
  | some value => .exact value quotient
  | none => .decimal quotient

/-- The fractions `(-b + root) / 2a` and `(-b - root) / 2a`. -/
def exactPair? (a b root : Int) : Option (Rat × Rat) := do
  let first ← (Fraction.reduce (-b + root) (2 * a)).toOption
  let second ← (Fraction.reduce (-b - root) (2 * a)).toOption
  return (first, second)

def Roots.ofPositive (a b discriminant : Float) : Roots :=
  let root := sqrt discriminant
  let first := (-b + root) / (2 * a)
  let second := (-b - root) / (2 * a)
  let fractions? := do exactPair? (← toInteger? a) (← toInteger? b) (← toInteger? root)
  match fractions? with
  | some (exactFirst, exactSecond) => .real root (.exact exactFirst exactSecond first second)
  | none => .real root (.decimal first second)

/-- The exact form of the conjugates `(-b ± √(-radicand)) / 2a`. -/
def exactConjugates? (a b radicand : Int) : Option Conjugates := do
  let real ← (Fraction.reduce (-b) (2 * a)).toOption
  match toInteger? (sqrt (Rounding.ofInteger radicand)) with
  | some root =>
    let imaginary ← (Fraction.reduce root (2 * a)).toOption
    return .rational real imaginary.abs
  | none => return .radical real radicand (2 * a).natAbs

/-- The integers `a`, `b` and `|discriminant|`, if they and `c` are integer-like. -/
def exactParts? (a b c discriminant : Float) : Option (Int × Int × Int) := do
  let a ← toInteger? a
  let b ← toInteger? b
  let _ ← toInteger? c
  return (a, b, ← toInteger? discriminant.abs)

def Roots.ofNegative (a b c discriminant : Float) : Roots :=
  let real := -b / (2 * a)
  let imaginary := (sqrt discriminant.abs / (2 * a)).abs
  .complex real imaginary <| do
    let (a, b, radicand) ← exactParts? a b c discriminant
    exactConjugates? a b radicand

def Roots.ofCoefficients (a b c discriminant : Float) : Roots :=
  if isNegligible discriminant then .double (.ofRatio (-b) (2 * a))
  else if discriminant > 0 then .ofPositive a b discriminant
  else .ofNegative a b c discriminant

def ofConstant (e : Equation) : Solution :=
  if isNegligible (e.coefficient 0) then .allReals e.form else .noSolution e.form

def Linear.ofEquation (e : Equation) : Linear :=
  let a := e.coefficient 1
  let b := e.coefficient 0
  ⟨e.form, a, b, .ofRatio (-b) a⟩

def Quadratic.ofEquation (e : Equation) : Quadratic :=
  let a := e.coefficient 2
  let b := e.coefficient 1
  let c := e.coefficient 0
  let discriminant := b * b - 4 * a * c
  ⟨e.form, a, b, c, discriminant, .ofCoefficients a b c discriminant⟩

/-- The solution by the degree of an equation, whatever its floats are. -/
def ofDegree (e : Equation) : Solution :=
  if e.degree = 0 then ofConstant e
  else if e.degree = 1 then .linear (.ofEquation e)
  else if e.degree = 2 then .quadratic (.ofEquation e)
  else .unsolvable e.degree

end Solution

/-- The solution of an equation, out of range if a float in it is not finite. -/
def Equation.solve (e : Equation) : Solution :=
  let solution := Solution.ofDegree e
  if solution.isFinite then solution else .outOfRange e.form

end PolyEq
