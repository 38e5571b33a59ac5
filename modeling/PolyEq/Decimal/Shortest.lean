import PolyEq.Decimal

/-! # The shortest decimal of a float

Among the decimals that read back as a given float, the one with the fewest digits is
found by walking from the coarsest decimal grid to finer ones. On each grid only the
two points beside the float can read back; the nearer of those that do is taken, and
the upper one where both are equally near.
-/

namespace PolyEq

namespace Decimal

/-- The multiple `index * 10 ^ grid`, with no place after the point when the grid is whole. -/
def onGrid (grid : Int) (index : Nat) : Decimal :=
  ⟨index * tenPow grid.toNat, (-grid).toNat⟩

/-- The points of a grid at and above `numerator / denominator`, the nearer one first. -/
def neighbours (numerator denominator : Nat) (grid : Int) : List Decimal :=
  let scaled := numerator * tenPow (-grid).toNat
  let unit := denominator * tenPow grid.toNat
  let lower := onGrid grid (scaled / unit)
  let upper := onGrid grid (scaled / unit + 1)
  if 2 * (scaled % unit) < unit then [lower, upper] else [upper, lower]

/-- The grids for `numerator / 2 ^ places`, from one coarser than the number to one holding it. -/
def grids (numerator places : Nat) : List Int :=
  let width (n : Nat) : Int := (Nat.toDigits 10 n).length
  let coarsest := width numerator - width (1 <<< places) + 1
  (List.range (coarsest + places + 1).toNat).map fun (i : Nat) => coarsest - i

/-- The shortest decimal that reads back as `x`, which is `numerator / 2 ^ places`. -/
def shortestOf (x : Float) (numerator places : Nat) : Decimal :=
  ((grids numerator places).findSome? fun grid =>
    (neighbours numerator (1 <<< places) grid).find? fun d => d.toFloat.toBits == x.toBits).getD
      ⟨numerator * Nat.pow 5 places, places⟩

/-- The shortest decimal that reads back as the magnitude of a finite float. -/
def shortest (x : Float) : Decimal :=
  match x.toModel.unpack with
  | .finite _ significand exponent _ =>
    shortestOf x.abs (significand <<< exponent.toNat) (-exponent).toNat
  | _ => ⟨0, 0⟩

end Decimal

end PolyEq
