/-! # Solutions

What solving an equation finds. Exact results are fractions and stand beside the floats
that approximate them.
-/

namespace PolyEq

namespace Solution

/-- A real root, exact where the coefficients allow it. -/
inductive Root where
  | exact (value : Rat) (approximation : Float)
  | decimal (value : Float)

/-- Two real roots in the order in which they are reported. -/
inductive Pair where
  | exact (first second : Rat) (approximateFirst approximateSecond : Float)
  | decimal (first second : Float)

/-- The exact form of two conjugates, by fractions or with a root that is not an integer. -/
inductive Conjugates where
  | rational (real imaginary : Rat)
  | radical (real : Rat) (radicand denominator : Int)

inductive Roots where
  | double (root : Root)
  | real (sqrtDiscriminant : Float) (pair : Pair)
  | complex (real imaginary : Float) (exact : Option Conjugates)

structure Linear where
  equation : String
  a : Float
  b : Float
  root : Root

/-- The equation `a * X ^ 2 + b * X + c = 0` and its roots. -/
structure Quadratic where
  equation : String
  a : Float
  b : Float
  c : Float
  discriminant : Float
  roots : Roots

end Solution

open Solution in
inductive Solution where
  | unsolvable (degree : UInt64)
  | allReals (equation : String)
  | noSolution (equation : String)
  | outOfRange (equation : String)
  | linear (solution : Linear)
  | quadratic (solution : Quadratic)

namespace Solution

def Root.value : Root → Float
  | exact _ approximation => approximation
  | decimal value => value

def Pair.values : Pair → List Float
  | exact _ _ first second => [first, second]
  | decimal first second => [first, second]

def Roots.reals : Roots → List Float
  | double root => [root.value]
  | real _ pair => pair.values
  | complex _ _ _ => []

def Roots.values : Roots → List Float
  | double root => [root.value]
  | real sqrtDiscriminant pair => sqrtDiscriminant :: pair.values
  | complex re im _ => [re, im]

def realRoots : Solution → List Float
  | linear s => [s.root.value]
  | quadratic s => s.roots.reals
  | _ => []

def values : Solution → List Float
  | linear s => [s.a, s.b, s.root.value]
  | quadratic s => s.a :: s.b :: s.c :: s.discriminant :: s.roots.values
  | _ => []

def isFinite (s : Solution) : Bool :=
  s.values.all Float.isFinite

end Solution

end PolyEq
