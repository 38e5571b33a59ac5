import PolyEq.Decimal.Shortest
import PolyEq.Tolerance

/-! # Numbers as text

Three renderings of a float: its shortest decimal, the same with integer-like values
shown as integers, and the rounded one that stands beside an exact result.
-/

namespace PolyEq

namespace Display

def signed (sign : Float.Model.UnpackedFloat.Sign) (text : List Char) : List Char :=
  match sign with
  | .positive => text
  | .negative => '-' :: text

/-- The shortest decimal that reads back, with the sign of a zero kept. -/
def exactText (x : Float) : List Char :=
  match x.toModel.unpack with
  | .notANumber => "NaN".toList
  | .infinity sign => signed sign "inf".toList
  | .zero sign => signed sign "0".toList
  | .finite sign _ _ _ => signed sign (Decimal.shortest x).text

/-- The shortest decimal that reads back; both zeros are `0`. -/
def numberText (x : Float) : List Char :=
  if x == 0 then "0".toList else exactText x

example : exactText (-0.0) = ['-', '0'] ∧ numberText (-0.0) = ['0'] := by decide +kernel

example : numberText (0.1 + 0.2) = "0.30000000000000004".toList := by decide +kernel

/-- Both neighbours are equally near, and the upper one is taken. -/
example : numberText (1 / 33554432) = "0.000000029802322387695313".toList := by decide +kernel

/-- An integer-like value as its integer, any other as its shortest decimal. -/
def collapsedText (x : Float) : List Char :=
  match toInteger? x with
  | some n => integerText n
  | none => numberText x

def approximateText (x : Float) : List Char :=
  collapsedText (Rounding.toDisplay x)

def exact (x : Float) : String := .ofList (exactText x)

def number (x : Float) : String := .ofList (numberText x)

def collapsed (x : Float) : String := .ofList (collapsedText x)

def approximate (x : Float) : String := .ofList (approximateText x)

end Display

end PolyEq
