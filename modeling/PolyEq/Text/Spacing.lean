/-! # Spacing around operators

Spaces, tabs and line ends may surround an operator. They are removed wherever the nearest
other character on one of their sides is an operator, and kept everywhere else.
-/

namespace PolyEq

namespace Spacing

def isBlank (c : Char) : Bool :=
  c == ' ' || c == '\t' || c == '\r' || c == '\n'

def isOperator (c : Char) : Bool :=
  c == '+' || c == '-' || c == '*' || c == '^'

/-- Whether the first character that is not blank is an operator. -/
def operatorAhead (text : List Char) : Bool :=
  (text.dropWhile isBlank).head?.any isOperator

/-- Removes blanks beside operators from a text that may itself follow an operator. -/
def tightenAfter (operatorBehind : Bool) : List Char → List Char
  | [] => []
  | c :: text =>
    if isBlank c then
      if operatorBehind || operatorAhead text then tightenAfter operatorBehind text
      else c :: tightenAfter operatorBehind text
    else c :: tightenAfter (isOperator c) text

def tighten (text : List Char) : List Char :=
  tightenAfter false text

end Spacing

end PolyEq
