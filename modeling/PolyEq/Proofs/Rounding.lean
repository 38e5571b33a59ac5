import PolyEq.Proofs.Binary64.Error
import PolyEq.Proofs.Binary64.Overflow

/-! # Rounding to the display precision

A number is scaled, rounded to an integer and scaled back. Only the first step can overflow. Short
of that the result is the float nearest to a number of millionths, and close to what was rounded.
-/

namespace PolyEq.Rounding

open Binary64

variable {x : Float} {q : ℚ} {n : ℤ}

theorem exists_denotes_toDisplay (hx : Denotes x q) (h : |q * 10 ^ 6| < overflowBound) :
    ∃ n : ℤ, |n - nearest (q * 10 ^ 6)| ≤ 1 / 2 ∧ Denotes (toDisplay x) (nearest (n / 10 ^ 6)) := by
  have hd := (hx.rounds_mul denotes_scale).denotes_of_lt (abs_nearest_lt_iff.mpr h)
  have hn := abs_nearestInteger_sub_le (x * ofInteger (tenPow decimalPlaces))
  have hi := denotes_toIntegral hd.isFinite
  rw [hd.value_eq] at hn
  refine ⟨_, hn, (hi.rounds_div denotes_scale (by norm_num)).denotes_of_lt ?_⟩
  generalize nearestInteger (x * ofInteger (tenPow decimalPlaces)) = n at hi
  calc |nearest (n / 10 ^ 6)| = nearest |(n : ℚ) / 10 ^ 6| := abs_nearest _
    _ ≤ nearest |(n : ℚ)| := by
      apply nearest_mono
      rw [abs_div]
      exact div_le_self (abs_nonneg _) (by norm_num)
    _ = |(n : ℚ)| := by rw [← abs_nearest, nearest_of_representable hi.representable]
    _ = |value (toIntegral (x * ofInteger (tenPow decimalPlaces)))| := by rw [hi.value_eq]
    _ < 2 ^ (1024 : ℤ) := abs_value_lt _

theorem exists_toDisplay_infinity (hx : Denotes x q) (h : overflowBound ≤ |q * 10 ^ 6|) :
    ∃ s, (toDisplay x).toModel.unpack = .infinity s := by
  have hr := hx.rounds_mul denotes_scale
  obtain ⟨s, hs⟩ := hr.exists_infinity fun hf => absurd (hr.isFinite_iff.mp hf) h.not_gt
  have hi : (toIntegral (x * ofInteger (tenPow decimalPlaces))).toModel.unpack = .infinity s := by
    rw [toIntegral, hs]
    exact hs
  exact unpack_div_of_infinity hi denotes_scale.isFinite

theorem isFinite_toDisplay_iff (hx : Denotes x q) :
    (toDisplay x).isFinite = true ↔ |q * 10 ^ 6| < overflowBound := by
  constructor
  · intro hf
    by_contra hle
    obtain ⟨s, hs⟩ := exists_toDisplay_infinity hx (not_lt.mp hle)
    change (toDisplay x).toModel.unpack.isFinite = true at hf
    rw [hs] at hf
    cases hf
  · intro h
    obtain ⟨n, -, hd⟩ := exists_denotes_toDisplay hx h
    exact hd.isFinite

theorem underflow_le : underflow ≤ 1 / 2 ^ 60 :=
  zpow_le_one_div_two_pow (by norm_num)

/-- The number of millionths misses the scaled number by a half and the error of one rounding. -/
theorem abs_div_sub_le (hn : |n - nearest (q * 10 ^ 6)| ≤ 1 / 2) :
    |n / 10 ^ 6 - q| ≤ 51 / 100 * (max 1 |q| / 10 ^ 6) := by
  have h6 : (0 : ℚ) < 10 ^ 6 := by norm_num
  have hu := underflow_le
  have herr := abs_nearest_sub_le_add (q * 10 ^ 6)
  have htri := abs_sub_le (n : ℚ) (nearest (q * 10 ^ 6)) (q * 10 ^ 6)
  have hone : 1 ≤ max 1 |q| := le_max_left _ _
  have hq : |q| ≤ max 1 |q| := le_max_right _ _
  have hscale : |(n : ℚ) / 10 ^ 6 - q| * 10 ^ 6 = |n - q * 10 ^ 6| :=
    calc |(n : ℚ) / 10 ^ 6 - q| * 10 ^ 6 = |(n / 10 ^ 6 - q) * 10 ^ 6| := by
          rw [abs_mul, abs_of_pos h6]
      _ = |n - q * 10 ^ 6| := by rw [sub_mul, div_mul_cancel₀ _ h6.ne']
  rw [abs_mul, abs_of_pos h6] at herr
  norm_num at hu herr htri hscale ⊢
  linarith

theorem abs_nearest_div_sub_le (hn : |n - nearest (q * 10 ^ 6)| ≤ 1 / 2) :
    |nearest (n / 10 ^ 6) - q| ≤ 6 / 10 * (max 1 |q| / 10 ^ 6) := by
  have hu := underflow_le
  have hdiv := abs_div_sub_le hn
  have herr := abs_nearest_sub_le_add ((n : ℚ) / 10 ^ 6)
  have htri := abs_sub_le (nearest (n / 10 ^ 6)) ((n : ℚ) / 10 ^ 6) q
  have hsize := abs_sub_abs_le_abs_sub ((n : ℚ) / 10 ^ 6) q
  have hone : 1 ≤ max 1 |q| := le_max_left _ _
  have hq : |q| ≤ max 1 |q| := le_max_right _ _
  norm_num at hu hdiv herr htri hsize ⊢
  linarith

end PolyEq.Rounding
