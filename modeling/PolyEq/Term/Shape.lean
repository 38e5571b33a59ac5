import PolyEq.Decimal.Numeral
import PolyEq.Term
import PolyEq.Text.WhiteSpace

/-! # Shapes of terms

A term without its sign is a constant, the unknown, a power of it, or a multiple of one of
these two. The shape splits the text into its coefficient and its exponent and leaves both
unread, so that a number that cannot be read is reported together with its term.
-/

namespace PolyEq

namespace Term

/-- A coefficient is missing where nothing stands before the unknown. -/
inductive Shape where
  | constant (coefficient : List Char)
  | unknown
  | power (exponent : List Char)
  | multiple (coefficient : Option (List Char))
  | multiplePower (coefficient : Option (List Char)) (exponent : List Char)
  deriving DecidableEq, Repr

namespace Shape

/-- Digits with at most one point, at least one digit. -/
def isConstant (text : List Char) : Bool :=
  text.all (fun c => c.isDigit || c == '.') && text.count '.' ≤ 1 && text.any Char.isDigit

/-- A multiple with an asterisk, the first in the text, before the unknown. -/
def product? (text : List Char) : Option Shape :=
  let coefficient := text.takeWhile (· ≠ '*')
  match text.dropWhile (· ≠ '*') with
  | ['*', 'X'] => some (.multiple (some coefficient))
  | '*' :: 'X' :: '^' :: exponent => some (.multiplePower (some coefficient) exponent)
  | _ => none

def splitPower? : List Char → Option (List Char × List Char)
  | [] => none
  | 'X' :: '^' :: exponent => some ([], exponent)
  | c :: text => (splitPower? text).map fun (coefficient, exponent) => (c :: coefficient, exponent)

def written? (coefficient : List Char) : Option (List Char) :=
  if coefficient = [] then none else some coefficient

/-- A multiple whose coefficient stands directly before the unknown. -/
def juxtaposed? (text : List Char) : Option Shape :=
  if text.getLast? = some 'X' then some (.multiple (written? text.dropLast))
  else (splitPower? text).map fun (coefficient, exponent) =>
    .multiplePower (written? coefficient) exponent

def classify? (text : List Char) : Option Shape :=
  if isConstant text then some (.constant text)
  else match text with
    | ['X'] => some .unknown
    | 'X' :: '^' :: exponent => some (.power exponent)
    | _ => (product? text).or (juxtaposed? text)

/-- Reads a coefficient, which may stand between white space and has to be finite. -/
def readCoefficient (text : List Char) : Except NumeralError Float := do
  let x ← Numeral.readFloat (trim text)
  if x.isFinite then .ok x else .error (.notFinite (.ofList text))

/-- A missing coefficient is one. -/
def readImplied : Option (List Char) → Except NumeralError Float
  | none => .ok 1
  | some text => readCoefficient text

def readExponent (text : List Char) : Except NumeralError UInt64 :=
  Numeral.readCount (trim text)

/-- The term of a shape. Its coefficient is read before its exponent. -/
def evaluate : Shape → Except NumeralError Term
  | constant coefficient => do return ⟨← readCoefficient coefficient, 0⟩
  | unknown => .ok ⟨1, 1⟩
  | power exponent => do return ⟨1, ← readExponent exponent⟩
  | multiple coefficient => do return ⟨← readImplied coefficient, 1⟩
  | multiplePower coefficient exponent => do
    return ⟨← readImplied coefficient, ← readExponent exponent⟩

end Shape

end Term

end PolyEq
