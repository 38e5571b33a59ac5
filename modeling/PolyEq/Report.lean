import PolyEq.Equation.Reading
import PolyEq.Solution.Derivation
import PolyEq.Solution.Solving

/-! # Reports

Everything that is shown for one equation, worked out from its text.
-/

namespace PolyEq

structure Report where
  reducedForm : String
  degree : UInt64
  solution : Solution

namespace Report

def ofText (text : String) : Except ReadError Report := do
  let equation := (← Equation.read text).reduce
  return ⟨equation.form, equation.degree, equation.solve⟩

def steps (r : Report) : List String :=
  r.solution.steps

end Report

def reduceText (text : String) : Except ReadError String := do
  return (← Equation.read text).reduce.form

def solveText (text : String) : Except ReadError (List String) := do
  return (← Report.ofText text).steps

end PolyEq
