import PolyEq.Side

/-! # Reading errors

Why a text is not an equation. Each cause names the text or the side it was found in.
-/

namespace PolyEq

inductive ReadError where
  | equalSigns (count : Nat)
  | emptySide (side : Side)
  | danglingOperator (expression : String)
  | consecutivePlus (expression : String)
  | noTerms (side : Side)
  | unknownTerm (term : String)
  | malformedNumber (term cause : String)
  deriving DecidableEq, Repr

namespace ReadError

/-- What an error is about: the equation as a whole, or one term. -/
inductive Scope where
  | equation
  | term
  deriving DecidableEq, Repr

def scope : ReadError → Scope
  | unknownTerm _ | malformedNumber _ _ => .term
  | _ => .equation

def message : ReadError → String
  | equalSigns n => s!"invalid equation format: must contain exactly one '=' sign, found {n}"
  | emptySide side =>
    s!"invalid equation format: the {side.name} side of the equation cannot be empty"
  | danglingOperator text => s!"invalid equation format: '{text}' ends with an operator"
  | consecutivePlus text =>
    s!"invalid equation format: consecutive '+' signs not allowed: '{text}'"
  | noTerms side => s!"the {side.name} side of the equation contains no valid terms"
  | unknownTerm term => s!"invalid term format: '{term}'"
  | malformedNumber term cause => s!"error parsing term '{term}': {cause}"

end ReadError

end PolyEq
