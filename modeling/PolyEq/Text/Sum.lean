/-! # Sums as text -/

namespace PolyEq

/-- A summand after the first, with its minus sign as the operator or with a plus sign before it. -/
def laterSummand : List Char → List Char
  | '-' :: magnitude => " - ".toList ++ magnitude
  | summand => " + ".toList ++ summand

def sumText : List (List Char) → List Char
  | [] => []
  | first :: later => first ++ later.flatMap laterSummand

end PolyEq
