import PolyEq.Decimal

/-! # Numerals

The two kinds of number an equation contains: a float literal, which may carry a sign, a
point, an exponent or be the name of a special value, and a count, which is a whole
number below `2 ^ 64`. Both readers take the whole text.
-/

namespace PolyEq

inductive NumeralError where
  | emptyFloat
  | malformedFloat
  | notFinite (text : String)
  | emptyCount
  | badDigit
  | tooLarge
  deriving DecidableEq, Repr

def NumeralError.message : NumeralError → String
  | emptyFloat => "cannot parse float from empty string"
  | malformedFloat => "invalid float literal"
  | notFinite text => s!"coefficient '{text}' is not a finite number"
  | emptyCount => "cannot parse integer from empty string"
  | badDigit => "invalid digit found in string"
  | tooLarge => "number too large to fit in target type"

namespace Numeral

/-- The value of an exponent's digits. It stops growing at the first value above 65535. -/
def exponentValue (digits : List Char) : Nat :=
  digits.foldl (fun n c => if n < 65536 then 10 * n + (c.toNat - '0'.toNat) else n) 0

def exponentDigits? (text : List Char) : Option Nat :=
  if text ≠ [] ∧ text.all Char.isDigit then some (exponentValue text) else none

def exponent? : List Char → Option Int
  | [] => some 0
  | mark :: text =>
    if mark = 'e' ∨ mark = 'E' then
      match text with
      | '-' :: digits => (exponentDigits? digits).map fun n => -(n : Int)
      | '+' :: digits => (exponentDigits? digits).map Int.ofNat
      | digits => (exponentDigits? digits).map Int.ofNat
    else none

/-- Digits with at most one point, at least one digit, then an optional exponent. -/
def unsignedDecimal? (text : List Char) : Option Float :=
  let whole := text.takeWhile Char.isDigit
  let (fraction, tail) := match text.dropWhile Char.isDigit with
    | '.' :: rest => (rest.takeWhile Char.isDigit, rest.dropWhile Char.isDigit)
    | rest => ([], rest)
  if whole ++ fraction = [] then none
  else (exponent? tail).map fun e =>
    Decimal.nearestFloat (Nat.ofDigitChars 10 (whole ++ fraction) 0) (e - fraction.length)

/-- The special values, named without regard to case. -/
def special? (text : List Char) : Option Float :=
  let name := text.map Char.toLower
  if name = "nan".toList then some (0 / 0)
  else if name = "inf".toList ∨ name = "infinity".toList then some (1 / 0)
  else none

def unsignedFloat? (text : List Char) : Option Float :=
  (unsignedDecimal? text).or (special? text)

def signedFloat? : List Char → Option Float
  | '-' :: text => (unsignedFloat? text).map (-·)
  | '+' :: text => unsignedFloat? text
  | text => unsignedFloat? text

def readFloat (text : List Char) : Except NumeralError Float :=
  if text = [] then .error .emptyFloat
  else match signedFloat? text with
    | some x => .ok x
    | none => .error .malformedFloat

/-- Appends one digit to a count. A bad digit is reported before an overflow at the same place. -/
def appendDigit (n : Nat) (c : Char) : Except NumeralError Nat :=
  let extended := 10 * n + (c.toNat - '0'.toNat)
  if !c.isDigit then .error .badDigit
  else if extended < UInt64.size then .ok extended
  else .error .tooLarge

def readCount (text : List Char) : Except NumeralError UInt64 :=
  match text with
  | [] => .error .emptyCount
  | ['+'] => .error .badDigit
  | '+' :: digits => UInt64.ofNat <$> digits.foldlM appendDigit 0
  | digits => UInt64.ofNat <$> digits.foldlM appendDigit 0

end Numeral

end PolyEq
