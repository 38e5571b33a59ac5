import PolyEq.Proofs.Binary64.Nearest

/-! # Rounding errors

A rounding errs by `2 ^ -53` of the exact number and half the smallest float. The second part is not
needed for a sum of two floats: a sum too small to have all its bits is a float itself.
-/

namespace PolyEq.Binary64

variable {q r y : ℚ}

/-- Half of the smallest positive float. -/
def underflow : ℚ :=
  2 ^ (-1075 : ℤ)

theorem underflow_pos : 0 < underflow :=
  zpow_pos (by norm_num) _

theorem two_mul_underflow : 2 * underflow = 2 ^ (-1074 : ℤ) := by
  rw [underflow, ← zpow_one_add₀ (by norm_num)]
  norm_num

theorem abs_nearest_sub_le_add (y : ℚ) : |nearest y - y| ≤ |y| / 2 ^ 53 + underflow := by
  by_cases h : 2 ^ (-1022 : ℤ) ≤ |y|
  · exact (abs_nearest_sub_le_mul h).trans (le_add_of_nonneg_right underflow_pos.le)
  · have hu : ulp y ≤ 2 ^ (-1074 : ℤ) := by
      refine ulp_le ((not_le.mp h).trans ?_) le_rfl
      exact zpow_lt_zpow_right₀ (by norm_num) (by norm_num)
    have hn := abs_nearest_sub_le y
    have hy : 0 ≤ |y| / 2 ^ 53 := by positivity
    rw [← two_mul_underflow] at hu
    linarith

theorem Representable.eq_mul (hr : Representable r) : ∃ n : ℤ, r = n * 2 ^ (-1074 : ℤ) := by
  obtain ⟨m, e, -, he, rfl⟩ := hr
  refine ⟨m * 2 ^ (e + 1074).toNat, ?_⟩
  rw [Int.cast_mul, Int.cast_pow, Int.cast_ofNat, mul_assoc, ← zpow_natCast,
    ← zpow_add₀ (by norm_num), Int.toNat_of_nonneg (by omega)]
  congr 2
  omega

/-- A sum of floats is rounded with a relative error, however small it is. -/
theorem Representable.abs_nearest_add_sub_le (hq : Representable q) (hr : Representable r) :
    |nearest (q + r) - (q + r)| ≤ |q + r| / 2 ^ 53 := by
  by_cases h : 2 ^ (-1022 : ℤ) ≤ |q + r|
  · exact abs_nearest_sub_le_mul h
  · obtain ⟨m, hm⟩ := hq.eq_mul
    obtain ⟨n, hn⟩ := hr.eq_mul
    have hv : q + r = (m + n : ℤ) * 2 ^ (-1074 : ℤ) := by
      rw [hm, hn, Int.cast_add, add_mul]
    have hz : (0 : ℚ) < 2 ^ (-1074 : ℤ) := zpow_pos (by norm_num) _
    have hlt : |((m + n : ℤ) : ℚ)| < 2 ^ 52 := by
      rw [hv, abs_mul, abs_of_pos hz, not_le] at h
      refine lt_of_mul_lt_mul_right (h.trans_eq ?_) hz.le
      rw [← zpow_natCast, ← zpow_add₀ (by norm_num)]
      norm_num
    have hle : |m + n| ≤ 2 ^ 53 := by
      have : |m + n| < 2 ^ 52 := by exact_mod_cast hlt
      omega
    rw [nearest_of_representable ⟨m + n, -1074, hle, le_rfl, hv⟩, sub_self, abs_zero]
    positivity

end PolyEq.Binary64
