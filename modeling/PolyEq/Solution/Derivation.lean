import PolyEq.Decimal.Display
import PolyEq.Fraction
import PolyEq.Solution
import PolyEq.Term
import PolyEq.Text.Sum

/-! # Derivations

A solution is told in lines: the equation, its coefficients, and the roots, exact ones
before their approximations.
-/

namespace PolyEq

open Display (number collapsed approximate)

namespace Solution

/-- A root, followed by its approximation if it is not an integer. -/
def Root.lines : Root → List String
  | exact value approximation =>
    let line := s!"{unknown} = {Fraction.display value}"
    if value.den = 1 then [line]
    else [line, s!"Which is approximately: {number approximation}"]
  | decimal value => [s!"{unknown} = {collapsed value}"]

def approximatePair (first second : Float) : List String :=
  [s!"{unknown}₁ ≈ {approximate first}", s!"{unknown}₂ ≈ {approximate second}"]

/-- Two roots, with approximations unless both are integers. -/
def Pair.lines : Pair → List String
  | exact first second approximateFirst approximateSecond =>
    ["Solutions in exact form:",
      s!"{unknown}₁ = {Fraction.display first}",
      s!"{unknown}₂ = {Fraction.display second}"] ++
    if first.den = 1 ∧ second.den = 1 then []
    else "Approximate solutions:" :: approximatePair approximateFirst approximateSecond
  | decimal first second => "Solutions in decimal form:" :: approximatePair first second

def conjugatePair (relation real imaginary : String) : List String :=
  [s!"{unknown}₁ {relation} {real} + {imaginary}",
    s!"{unknown}₂ {relation} {real} - {imaginary}"]

def Conjugates.lines : Conjugates → List String
  | rational real imaginary =>
    "Solutions in exact form:" ::
      conjugatePair "=" (Fraction.display real) s!"{Fraction.display imaginary}i"
  | radical real radicand denominator =>
    "Solutions in exact form (symbolic):" ::
      conjugatePair "=" (Fraction.display real) s!"√({radicand})/{denominator} i"

def Roots.lines (discriminant : Float) : Roots → List String
  | double root => "Discriminant is zero, there is one real solution:" :: root.lines
  | real sqrtDiscriminant pair =>
    let shown := number discriminant
    [s!"Discriminant is strictly positive (Δ = {shown}), there are two real solutions:",
      s!"√Δ ≈ {number sqrtDiscriminant}"] ++ pair.lines
  | complex re im form? =>
    let shown := number discriminant
    s!"Discriminant is strictly negative (Δ = {shown}), there are two complex solutions:" ::
      (match form? with
        | some conjugates => conjugates.lines ++ ["Approximate solutions:"]
        | none => ["Solutions in decimal form:"]) ++
      conjugatePair "≈" (approximate re) s!"{approximate im}i"

def Quadratic.polynomial (s : Quadratic) : String :=
  .ofList (sumText
    [Display.numberText s.a ++ " * ".toList ++ [unknown, '²'],
      Display.numberText s.b ++ " * ".toList ++ [unknown], Display.numberText s.c])

def Linear.lines (s : Linear) : List String :=
  [s!"Equation: {s.equation}",
    s!"Linear equation: {number s.a} * {unknown} = {number (-s.b)}",
    s!"Solution is {unknown} = -({number s.b}) / {number s.a}",
    "The solution is:"] ++ s.root.lines

def Quadratic.lines (s : Quadratic) : List String :=
  let a := number s.a
  let b := number s.b
  let c := number s.c
  [s!"Equation: {s.equation}",
    s!"Quadratic equation: {s.polynomial} = 0",
    s!"Discriminant Δ = b² - 4ac = ({b})² - 4 * ({a}) * ({c}) = {number s.discriminant}"] ++
  s.roots.lines s.discriminant

def steps : Solution → List String
  | unsolvable _ => ["The polynomial degree is strictly greater than 2, I can't solve."]
  | allReals equation => [s!"Equation: {equation}", "All real numbers are solutions."]
  | noSolution equation => [s!"Equation: {equation}", "There is no solution."]
  | outOfRange equation =>
    [s!"Equation: {equation}",
      "The coefficients are too large to solve with floating point numbers."]
  | linear s => s.lines
  | quadratic s => s.lines

end Solution

end PolyEq
