import PolyEq.Equation.Reading
import PolyEq.Solution.Solving

/-! # Journals

Reading, reducing and solving leave a record for whoever wants to follow them: entries in
the order of the work, each with its level. The record of a reading that failed ends where
the reading did.
-/

namespace PolyEq

namespace Journal

inductive Level where
  | warn
  | info
  | debug
  | trace
  deriving DecidableEq, Repr

def Level.name : Level → String
  | warn => "WARN"
  | info => "INFO"
  | debug => "DEBUG"
  | trace => "TRACE"

def Level.rank : Level → Nat
  | warn => 0
  | info => 1
  | debug => 2
  | trace => 3

structure Entry where
  level : Level
  message : String

def ofTerm (side : Side) (r : ReadTerm) : Entry :=
  let fragment := String.ofList r.fragment
  let coefficient := Display.exact r.term.coefficient
  ⟨.trace, s!"{side.name} term '{fragment}' -> {coefficient} * {unknown}^{r.term.exponent}"⟩

def ofSide (side : Side) (reading : SideReading) : List Entry :=
  let expression := String.ofList reading.expression
  ⟨.debug, s!"{side.name} side normalized to '{expression}'"⟩ :: reading.terms.map (ofTerm side)

/-- The right side is read only if the left one has no fault. -/
def ofReading (text : String) : List Entry :=
  match splitSides text.toList with
  | .error _ => []
  | .ok (left, right) =>
    let leftReading := readSide .left left
    ofSide .left leftReading ++
      if leftReading.fault.isSome then [] else ofSide .right (readSide .right right)

/-- A square root is mentioned only if its iteration gave up. -/
def ofSquareRoot (x : Float) : List Entry :=
  let root := SquareRoot.of x
  if root.converged then []
  else
    [⟨.debug,
      s!"sqrt({Display.exact x}) did not converge, returning {Display.exact root.value}"⟩]

/-- Conjugates with an exact form take a second square root, that of the integer radicand. -/
def ofQuadratic (s : Solution.Quadratic) : List Entry :=
  let shown := Display.exact s.discriminant
  if isNegligible s.discriminant then [⟨.debug, "discriminant is zero"⟩]
  else if s.discriminant > 0 then
    ⟨.debug, s!"discriminant {shown} is positive"⟩ :: ofSquareRoot s.discriminant
  else
    ⟨.debug, s!"discriminant {shown} is negative"⟩ :: ofSquareRoot s.discriminant.abs ++
      match Solution.exactParts? s.a s.b s.c s.discriminant with
      | some (_, _, radicand) => ofSquareRoot (Rounding.ofInteger radicand)
      | none => []

def ofSolving (e : Equation) : List Entry :=
  let solution := Solution.ofDegree e
  ⟨.debug, s!"solving degree {e.degree} equation"⟩ ::
    (match solution with
      | .quadratic s => ofQuadratic s
      | _ => []) ++
    if solution.isFinite then [] else [⟨.warn, s!"degree {e.degree} solution left f64 range"⟩]

def ofText (text : String) : List Entry :=
  ofReading text ++
    match Equation.read text with
    | .error _ => []
    | .ok e =>
      let reduced := e.reduce
      ⟨.info, s!"reduced '{text}' to '{reduced.form}' (degree {reduced.degree})"⟩ ::
        ofSolving reduced

end Journal

end PolyEq
