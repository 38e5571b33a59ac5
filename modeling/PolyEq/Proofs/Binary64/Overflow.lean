import PolyEq.Proofs.Binary64.Special

/-! # Overflow

A result is rounded to an infinity exactly if it is at least half a unit in the last place above the
largest float. The midpoint itself is a tie, and the even significand is the one out of range. An
infinity stays one when it is divided by a finite number.
-/

namespace PolyEq.Binary64

open Float.Model Float.Model.UnpackedFloat

variable {x y : Float} {q : ℚ} {s : Sign}

/-- The midpoint between the largest float and the power of two above it. -/
def overflowBound : ℚ :=
  (2 ^ 54 - 1) * 2 ^ (970 : ℤ)

theorem overflowBound_pos : 0 < overflowBound :=
  mul_pos (by norm_num) (zpow_pos (by norm_num) _)

theorem two_zpow_eq_mul {k : ℕ} {e : ℤ} (h : e = k + 970) :
    (2 : ℚ) ^ e = 2 ^ k * 2 ^ (970 : ℤ) := by
  rw [h, zpow_add₀ (by norm_num), zpow_natCast]

theorem two_zpow_limit : (2 : ℚ) ^ (1024 : ℤ) = 2 ^ 54 * 2 ^ (970 : ℤ) :=
  two_zpow_eq_mul (by norm_num)

theorem two_pow_lt_overflowBound {k : ℕ} (hk : k ≤ 1023) : 2 ^ k < overflowBound := by
  have hz : (0 : ℚ) < 2 ^ (970 : ℤ) := zpow_pos (by norm_num) _
  calc (2 : ℚ) ^ k ≤ 2 ^ (1023 : ℤ) := two_pow_le_zpow (by omega)
    _ = 2 ^ 53 * 2 ^ (970 : ℤ) := two_zpow_eq_mul (by norm_num)
    _ < overflowBound := by
      rw [overflowBound]
      gcongr
      norm_num

theorem ulp_overflowBound : ulp overflowBound = 2 * 2 ^ (970 : ℤ) := by
  have hz : (0 : ℚ) < 2 ^ (970 : ℤ) := zpow_pos (by norm_num) _
  have hg : grid overflowBound = 971 := by
    apply le_antisymm
    · refine grid_le ?_ (by norm_num)
      rw [abs_of_pos overflowBound_pos, two_zpow_eq_mul (k := 54) (by norm_num), overflowBound]
      gcongr
      norm_num
    · apply le_grid_of_le_abs
      rw [abs_of_pos overflowBound_pos, two_zpow_eq_mul (k := 53) (by norm_num), overflowBound]
      gcongr
      norm_num
  rw [ulp, hg, two_zpow_eq_mul (k := 1) (by norm_num), pow_one]

theorem nearest_overflowBound : nearest overflowBound = 2 ^ (1024 : ℤ) := by
  have hz : (0 : ℚ) < 2 ^ (970 : ℤ) := zpow_pos (by norm_num) _
  have hlimit : ((2 ^ 53 : ℤ) : ℚ) * ulp overflowBound = 2 ^ (1024 : ℤ) := by
    rw [ulp_overflowBound, two_zpow_limit, Int.cast_pow, Int.cast_ofNat, ← mul_assoc, ← pow_succ]
  have hgap : |((2 ^ 53 : ℤ) : ℚ) * ulp overflowBound - overflowBound| =
      ulp overflowBound / 2 := by
    rw [hlimit, two_zpow_limit, ulp_overflowBound, overflowBound, ← sub_mul, sub_sub_cancel,
      one_mul, abs_of_pos hz, mul_div_cancel_left₀ _ two_ne_zero]
  rw [nearest_eq_of_abs_le (n := 2 ^ 53) hgap.le fun _ => ⟨2 ^ 52, by norm_num⟩, hlimit]

/-- Below the midpoint the largest float is nearer than anything above it. -/
theorem nearest_lt_of_lt (h : q < overflowBound) : nearest q < 2 ^ (1024 : ℤ) := by
  have hmax : Representable ((2 ^ 53 - 1 : ℤ) * 2 ^ (971 : ℤ)) :=
    ⟨2 ^ 53 - 1, 971, by norm_num, by norm_num, rfl⟩
  have hz : (0 : ℚ) < 2 ^ (970 : ℤ) := zpow_pos (by norm_num) _
  rw [two_zpow_eq_mul (e := 971) (k := 1) (by norm_num)] at hmax
  rw [two_zpow_limit]
  rw [overflowBound] at h
  generalize (2 : ℚ) ^ (970 : ℤ) = w at *
  push_cast at hmax
  norm_num at hmax h ⊢
  rcases le_or_gt q (9007199254740991 * (2 * w)) with hq | hq
  · have hn := nearest_le hmax hq
    linarith
  · have hn := (le_abs_self _).trans (hmax.abs_nearest_sub_le q)
    rw [abs_of_neg (sub_neg.mpr hq)] at hn
    linarith

theorem abs_nearest_lt_iff : |nearest q| < 2 ^ (1024 : ℤ) ↔ |q| < overflowBound := by
  rw [abs_nearest]
  constructor
  · intro h
    by_contra hle
    have hn := nearest_mono (not_lt.mp hle)
    rw [nearest_overflowBound] at hn
    exact absurd h hn.not_gt
  · exact nearest_lt_of_lt

theorem Rounds.isFinite_iff (h : Rounds x q) : x.isFinite = true ↔ |q| < overflowBound := by
  rw [← abs_nearest_lt_iff]
  constructor
  · intro hx
    rw [← h.value_eq hx]
    exact abs_value_lt x
  · intro hq
    exact (h.denotes_of_lt hq).isFinite

theorem Rounds.exists_infinity (h : Rounds x q) (hx : ¬ x.isFinite = true) :
    ∃ s, x.toModel.unpack = .infinity s := by
  cases h with
  | finite hfinite _ => exact absurd hfinite hx
  | overflow s hs _ _ => exact ⟨s, hs⟩

theorem unpack_div_of_infinity (hx : x.toModel.unpack = .infinity s) (hy : y.isFinite = true) :
    ∃ s', (x / y).toModel.unpack = .infinity s' := by
  rw [div_eq, unpack_toModel_ofModel, hx]
  obtain ⟨t, hu, -⟩ | ⟨t, m, e, hm, hu, -⟩ := finite_cases hy <;> rw [hu] <;>
    exact ⟨_, unpack_pack_infinity⟩

end PolyEq.Binary64
