/-! # Sides of an equation -/

namespace PolyEq

inductive Side where
  | left
  | right
  deriving DecidableEq, Repr

namespace Side

def name : Side → String
  | left => "left"
  | right => "right"

/-- A coefficient as it counts on the left: one from the right is negated. -/
def orient (side : Side) (coefficient : Float) : Float :=
  match side with
  | left => coefficient
  | right => -coefficient

end Side

end PolyEq
