import PolyEq.ReadError
import PolyEq.Term.Shape

/-! # Reading a term

One minus sign may stand directly before a term. A minus sign with nothing after it is no
term, and no error either.
-/

namespace PolyEq

namespace Term

def negate (t : Term) : Term :=
  ⟨-t.coefficient, t.exponent⟩

def readUnsigned (body : List Char) : Except ReadError Term :=
  match Shape.classify? body with
  | none => .error (.unknownTerm (.ofList body))
  | some shape =>
    match shape.evaluate with
    | .ok t => .ok t
    | .error cause => .error (.malformedNumber (.ofList body) cause.message)

/-- Reads a term with its sign; `none` if nothing but a sign is there. -/
def read : List Char → Except ReadError (Option Term)
  | [] | ['-'] => .ok none
  | '-' :: body => (readUnsigned body).map fun t => some t.negate
  | body => (readUnsigned body).map some

end Term

end PolyEq
