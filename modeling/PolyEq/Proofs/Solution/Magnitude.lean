import PolyEq.Proofs.Equation.Coefficients
import PolyEq.Proofs.Rounding
import PolyEq.Proofs.Solution.Derivation
import PolyEq.Proofs.Solution.Values
import PolyEq.Proofs.SquareRoot.Accuracy

/-! # The size of the roots

If the discriminant of a quadratic equation is finite, its coefficients are far from overflow. The
leading one reaches the tolerance, so the roots are small enough to be scaled for display.
-/

namespace PolyEq

open Binary64 SquareRoot Float.Model.UnpackedFloat

namespace Binary64

variable {x : Float} {q r : ℚ}

theorem Rounds.abs_lt (h : Rounds x q) (hx : x.isFinite = true) : |q| < 2 ^ 1024 := by
  by_contra hle
  have hn := nearest_mono (not_lt.mp hle)
  rw [nearest_of_representable (representable_two_pow 1024), ← abs_nearest, ← h.value_eq hx] at hn
  exact absurd (denotes_value hx).lt (not_lt.mpr hn)

theorem Rounds.denotes_of_abs_le {k : ℕ} (h : Rounds x q) (hq : |q| ≤ 2 ^ k) (hk : k ≤ 1023) :
    Denotes x (nearest q) ∧ |nearest q| ≤ 2 ^ k :=
  ⟨h.denotes (hq.trans (two_pow_le_zpow (by omega))), abs_nearest_le hq⟩

end Binary64

namespace Rounding

variable {x : Float} {q : ℚ}

theorem isFinite_toDisplay (hx : Denotes x q) (hq : |q| ≤ 2 ^ 1000) :
    (toDisplay x).isFinite = true := by
  rw [isFinite_toDisplay_iff hx, abs_mul]
  calc |q| * |(10 : ℚ) ^ 6| ≤ 2 ^ 1000 * 2 ^ 20 := by
        gcongr
        norm_num
    _ = 2 ^ 1020 := (pow_add _ _ _).symm
    _ < overflowBound := two_pow_lt_overflowBound (by norm_num)

end Rounding

@[simp] theorem Solution.printed_ofPositive (x y u : Float) :
    (Solution.Roots.ofPositive x y u).printed =
      [sqrt u, Rounding.toDisplay ((-y + sqrt u) / (2 * x)),
        Rounding.toDisplay ((-y - sqrt u) / (2 * x))] := by
  unfold Solution.Roots.ofPositive
  dsimp only
  split <;> rfl

variable {e : Equation} {x y z u : Float} {a b c d p : ℚ}

/-- The coefficients and the discriminant are finite, and the leading coefficient is not
negligible. -/
structure Regular (x y z : Float) (a b c d : ℚ) : Prop where
  second : Denotes x a
  first : Denotes y b
  constant : Denotes z c
  discriminant : Denotes (y * y - 4 * x * z) d
  tolerance_le : tolerance ≤ |a|

namespace Regular

theorem ne_zero (h : Regular x y z a b c d) : a ≠ 0 :=
  abs_pos.mp (tolerance_pos.trans_le h.tolerance_le)

theorem isFinite_products (h : Regular x y z a b c d) :
    (y * y).isFinite = true ∧ (4 * x * z).isFinite = true :=
  isFinite_of_sub h.discriminant.isFinite

theorem denotes_four_mul (h : Regular x y z a b c d) : Denotes (4 * x) (4 * a) := by
  have hf := (isFinite_of_mul h.isFinite_products.2).1
  have hr := denotes_four.rounds_mul h.second
  have hrep : Representable (4 * a) := by
    rw [show 4 * a = 2 * (2 * a) by ring]
    exact h.second.representable.two_mul.two_mul
  exact ⟨hf, (hr.value_eq hf).trans (nearest_of_representable hrep)⟩

theorem denotes_products (h : Regular x y z a b c d) :
    Denotes (y * y) (nearest (b * b)) ∧ Denotes (4 * x * z) (nearest (4 * a * c)) :=
  ⟨⟨h.isFinite_products.1, (h.first.rounds_mul h.first).value_eq h.isFinite_products.1⟩,
    h.isFinite_products.2,
    (h.denotes_four_mul.rounds_mul h.constant).value_eq h.isFinite_products.2⟩

theorem discriminant_eq (h : Regular x y z a b c d) :
    d = nearest (nearest (b * b) - nearest (4 * a * c)) :=
  h.discriminant.value_eq.symm.trans
    ((h.denotes_products.1.rounds_sub h.denotes_products.2).value_eq h.discriminant.isFinite)

theorem denotes_two_mul (h : Regular x y z a b c d) : Denotes (2 * x) (2 * a) := by
  refine (denotes_two.rounds_mul h.second).denotes_of_representable
    h.second.representable.two_mul ?_
  calc |2 * a| ≤ |4 * a| := by
        rw [abs_mul, abs_mul]
        gcongr
        norm_num
    _ < 2 ^ 1024 := h.denotes_four_mul.lt
    _ = 2 ^ (1024 : ℤ) := (zpow_natCast 2 1024).symm

theorem abs_first_le (h : Regular x y z a b c d) : |b| ≤ 2 ^ 512 := by
  have hlt := (h.first.rounds_mul h.first).abs_lt h.isFinite_products.1
  refine le_of_sq_le_sq ?_ (by positivity)
  calc |b| ^ 2 = |b * b| := by rw [sq, abs_mul]
    _ ≤ 2 ^ 1024 := hlt.le
    _ = (2 ^ 512) ^ 2 := pow_mul 2 512 2

theorem exists_denotes_div (h : Regular x y z a b c d) (hu : Denotes u p) (hp : |p| ≤ 2 ^ 911) :
    ∃ r, Denotes (u / (2 * x)) r ∧ |r| ≤ 2 ^ 1000 := by
  have ht := lt_tolerance
  have ha : 1 / 2 ^ 34 ≤ |2 * a| := by
    have := h.tolerance_le
    rw [abs_mul, abs_two]
    norm_num at ht ⊢
    linarith
  have hq : |p / (2 * a)| ≤ 2 ^ 945 := by
    rw [abs_div]
    calc |p| / |2 * a| ≤ 2 ^ 911 / (1 / 2 ^ 34) := by gcongr
      _ = 2 ^ 911 * 2 ^ 34 := by rw [div_div_eq_mul_div, div_one]
      _ = 2 ^ 945 := (pow_add _ _ _).symm
  have h0 : 2 * a ≠ 0 := mul_ne_zero two_ne_zero h.ne_zero
  obtain ⟨hd, hle⟩ := (hu.rounds_div h.denotes_two_mul h0).denotes_of_abs_le hq (by norm_num)
  exact ⟨_, hd, hle.trans (pow_le_pow_right₀ (by norm_num) (by norm_num))⟩

theorem isFinite_toDisplay_div (h : Regular x y z a b c d) (hu : Denotes u p)
    (hp : |p| ≤ 2 ^ 911) : (Rounding.toDisplay (u / (2 * x))).isFinite = true := by
  obtain ⟨r, hr, hle⟩ := h.exists_denotes_div hu hp
  exact Rounding.isFinite_toDisplay hr hle

end Regular

namespace Regular

variable (h : Regular x y z a b c d)
include h

theorem abs_add_root_le {s : ℚ} (hs : |s| ≤ 2 ^ 910) : |-b + s| ≤ 2 ^ 911 := by
  have hb : |-b| ≤ 2 ^ 910 := by
    rw [abs_neg]
    exact h.abs_first_le.trans (pow_le_pow_right₀ (by norm_num) (by norm_num))
  calc |-b + s| ≤ |-b| + |s| := abs_add_le _ _
    _ ≤ 2 ^ 910 + 2 ^ 910 := add_le_add hb hs
    _ = 2 ^ 911 := by rw [← mul_two, ← pow_succ]

open Solution

theorem isFinite_printed_positive (hD : Denotes u d) (hd : tolerance ≤ d) :
    ∀ v ∈ (Roots.ofPositive x y u).printed, v.isFinite = true := by
  obtain ⟨s, hs, hr⟩ := exists_isRoot hD hd
  have habs : |s| ≤ 2 ^ 910 := (abs_of_pos hr.pos).trans_le hr.le
  obtain ⟨h₁, hle₁⟩ := (h.first.neg.rounds_add hs).denotes_of_abs_le (h.abs_add_root_le habs)
    (by norm_num)
  obtain ⟨h₂, hle₂⟩ := (h.first.neg.rounds_sub hs).denotes_of_abs_le (k := 911) (by
    rw [sub_eq_add_neg]
    exact h.abs_add_root_le ((abs_neg s).trans_le habs)) (by norm_num)
  simp only [printed_ofPositive, List.forall_mem_cons]
  exact ⟨hs.isFinite, h.isFinite_toDisplay_div h₁ hle₁, h.isFinite_toDisplay_div h₂ hle₂, by simp⟩

theorem isFinite_printed_negative (hD : Denotes u d) (hd : tolerance ≤ |d|) :
    ∀ v ∈ (Roots.ofNegative x y z u).printed, v.isFinite = true := by
  obtain ⟨s, hs, hr⟩ := exists_isRoot hD.abs hd
  have habs : |s| ≤ 2 ^ 910 := (abs_of_pos hr.pos).trans_le hr.le
  have hb : |-b| ≤ 2 ^ 911 := by
    rw [abs_neg]
    exact h.abs_first_le.trans (pow_le_pow_right₀ (by norm_num) (by norm_num))
  obtain ⟨r, hdiv, hle⟩ := h.exists_denotes_div hs
    (habs.trans (pow_le_pow_right₀ (by norm_num) (by norm_num)))
  simp only [Roots.ofNegative, Roots.printed, List.forall_mem_cons]
  exact ⟨h.isFinite_toDisplay_div h.first.neg hb,
    Rounding.isFinite_toDisplay hdiv.abs (by rwa [abs_abs]), by simp⟩

theorem isFinite_printed (hD : u = y * y - 4 * x * z)
    (hv : ∀ v ∈ (Roots.ofCoefficients x y z u).values, v.isFinite = true) :
    ∀ v ∈ (Roots.ofCoefficients x y z u).printed, v.isFinite = true := by
  have hd : Denotes u d := hD ▸ h.discriminant
  unfold Roots.ofCoefficients at *
  split_ifs at * with hn hpos
  · exact hv
  · have hle : tolerance ≤ |d| := not_lt.mp (mt (isNegligible_iff hd).mpr hn)
    rw [abs_of_pos ((denotes_zero.lt_iff hd).mp hpos)] at hle
    exact h.isFinite_printed_positive hd hle
  · exact h.isFinite_printed_negative hd (not_lt.mp (mt (isNegligible_iff hd).mpr hn))

end Regular

namespace Solution

theorem regular_ofEquation (h : e.DegreeAttained) (h2 : e.degree = 2)
    (hf : (Solution.quadratic (.ofEquation e)).isFinite = true) :
    Regular (e.coefficient 2) (e.coefficient 1) (e.coefficient 0) (value (e.coefficient 2))
      (value (e.coefficient 1)) (value (e.coefficient 0))
      (value (Quadratic.ofEquation e).discriminant) := by
  simp only [isFinite, values, List.all_cons, Bool.and_eq_true] at hf
  have ha := denotes_value hf.1
  refine ⟨ha, denotes_value hf.2.1, denotes_value hf.2.2.1, denotes_value hf.2.2.2.1, ?_⟩
  have hle := h.epsilon_le (by rw [h2]; decide)
  rw [h2] at hle
  exact (denotes_epsilon.le_iff ha.abs).mp hle

/-- Every float that the derivation of a solution prints is finite. -/
theorem isFinite_printed (h : e.DegreeAttained) : ∀ x ∈ e.solve.printed, x.isFinite = true := by
  have hsolved := solved_solve e
  generalize e.solve = solution at hsolved ⊢
  cases hsolved with
  | linear hd hf => exact List.all_eq_true.mp hf
  | quadratic hd hf =>
    have hreg := regular_ofEquation h hd hf
    simp only [isFinite, values, List.all_cons, Bool.and_eq_true, List.all_eq_true] at hf
    simp only [printed, List.forall_mem_cons]
    exact ⟨hf.1, hf.2.1, hf.2.2.1, hf.2.2.2.1, hreg.isFinite_printed rfl hf.2.2.2.2⟩
  | allReals | noSolution | outOfRange | unsolvable => simp [printed]

end Solution

namespace Equation

/-- Whatever terms are added, with reductions between them, no line of the derivation but the
equation itself shows an infinity or a NaN. -/
theorem clean_steps (edits : List Edit) : ∀ line ∈ (run edits).solve.steps,
    ¬ "Equation: ".toList <+: line.toList →
      ¬ "inf".toList <:+: line.toList ∧ ¬ "NaN".toList <:+: line.toList :=
  fun line hline h => ((run edits).solve.cleanLine_steps
    (Solution.isFinite_printed (degreeAttained_run edits)) line hline).resolve_left h

/-- The equation `inf * X ^ 2 + NaN * X = 0` is out of range. -/
theorem clean_steps_infinite : ∃ edits : List Edit, ∃ line,
    edits = [.add ⟨1 / 0, 2⟩ .left, .add ⟨0 / 0, 1⟩ .left] ∧
      line = "The coefficients are too large to solve with floating point numbers." ∧
      line ∈ (run edits).solve.steps ∧ ¬ "Equation: ".toList <+: line.toList ∧
      ¬ "inf".toList <:+: line.toList ∧ ¬ "NaN".toList <:+: line.toList := by
  refine ⟨_, _, rfl, rfl, ?_⟩
  have hmem : "The coefficients are too large to solve with floating point numbers." ∈
      (run [.add ⟨1 / 0, 2⟩ .left, .add ⟨0 / 0, 1⟩ .left]).solve.steps := by decide +kernel
  have hline : ¬ "Equation: ".toList <+:
      "The coefficients are too large to solve with floating point numbers.".toList := by
    decide +kernel
  exact ⟨hmem, hline, clean_steps _ _ hmem hline⟩

end Equation

end PolyEq
