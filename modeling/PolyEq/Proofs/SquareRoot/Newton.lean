import PolyEq.SquareRoot
import PolyEq.Proofs.Tolerance

/-! # Newton steps on rationals

One step of the iteration takes a guess to the mean of itself and a quotient, rounded twice.
The mean is never below the root, and its relative excess over the root is less than a
quarter of that of the guess. The roundings add a few units in the last place.
-/

namespace PolyEq

open Binary64

namespace SquareRoot

def mean (a g : ℚ) : ℚ :=
  (g + a / g) / 2

def newton (a g : ℚ) : ℚ :=
  nearest (g + nearest (a / g)) / 2

/-- How far the square of a guess exceeds the radicand, relative to the radicand. -/
def excess (a g : ℚ) : ℚ :=
  g ^ 2 / a - 1

variable {x y : Float} {a g r : ℚ}

theorem representable_half (hr : Representable r) (h : 2 ^ (-1000 : ℤ) ≤ |r|) :
    Representable (r / 2) := by
  obtain ⟨m, e, hm, he, rfl⟩ := hr
  have hz : (0 : ℚ) < 2 ^ e := by positivity
  have hlt : -1054 < e := by
    by_contra hle
    have hm' : |(m : ℚ)| ≤ 2 ^ (53 : ℤ) := by exact_mod_cast hm
    have hp : (2 : ℚ) ^ e ≤ 2 ^ (-1054 : ℤ) := zpow_le_zpow_right₀ (by norm_num) (by omega)
    have : |(m : ℚ) * 2 ^ e| ≤ 2 ^ (-1001 : ℤ) := by
      rw [abs_mul, abs_of_pos hz]
      calc |(m : ℚ)| * 2 ^ e ≤ 2 ^ (53 : ℤ) * 2 ^ (-1054 : ℤ) := by gcongr
        _ = 2 ^ (-1001 : ℤ) := by rw [← zpow_add₀ (by norm_num)]; norm_num
    have hlt : (2 : ℚ) ^ (-1001 : ℤ) < 2 ^ (-1000 : ℤ) :=
      zpow_lt_zpow_right₀ (by norm_num) (by norm_num)
    linarith
  refine ⟨m, e - 1, hm, by omega, ?_⟩
  rw [zpow_sub_one₀ (by norm_num)]
  ring

theorem denotes_half : Denotes 0.5 (1 / 2) := by
  have h : (0.5 : Float) = Decimal.nearestFloat 5 (-1) := by rfl
  have hv : ((5 : ℕ) : ℚ) * 10 ^ (-1 : ℤ) = 2 ^ (-1 : ℤ) := by norm_num
  have hr := rounds_nearestFloat 5 (-1)
  rw [hv] at hr
  have hd := hr.denotes_of_representable (representable_zpow (by norm_num))
    (by rw [abs_of_pos (by positivity)]; exact zpow_lt_zpow_right₀ (by norm_num) (by norm_num))
  rwa [h, one_div, ← zpow_neg_one]

theorem denotes_improve (hx : Denotes x a) (hy : Denotes y g) (ha : 0 ≤ a)
    (hl : 2 ^ (-1000 : ℤ) ≤ g) (hu : g ≤ 2 ^ (1022 : ℤ)) (hq : a / g ≤ 2 ^ (1022 : ℤ)) :
    Denotes (improve x y) (newton a g) := by
  have hg : 0 < g := lt_of_lt_of_le (by positivity) hl
  have h22 : (2 : ℚ) ^ (1022 : ℤ) ≤ 2 ^ (1023 : ℤ) :=
    zpow_le_zpow_right₀ (by norm_num) (by norm_num)
  have h2 : (2 : ℚ) ^ (1022 : ℤ) + 2 ^ (1022 : ℤ) = 2 ^ (1023 : ℤ) := by
    rw [← two_mul, ← zpow_one_add₀ (by norm_num)]
    norm_num
  have hq0 : 0 ≤ a / g := div_nonneg ha hg.le
  have hd := (hx.rounds_div hy hg.ne').denotes (by rw [abs_of_nonneg hq0]; exact hq.trans h22)
  have hd0 : 0 ≤ nearest (a / g) := nearest_nonneg hq0
  have hdu : nearest (a / g) ≤ 2 ^ (1022 : ℤ) := nearest_le (representable_zpow (by norm_num)) hq
  have hs0 : 0 ≤ g + nearest (a / g) := add_nonneg hg.le hd0
  have hsu : g + nearest (a / g) ≤ 2 ^ (1023 : ℤ) := (add_le_add hu hdu).trans h2.le
  have hs := (hy.rounds_add hd).denotes (by rwa [abs_of_nonneg hs0])
  have hsl : 2 ^ (-1000 : ℤ) ≤ nearest (g + nearest (a / g)) :=
    hl.trans (le_nearest hy.representable (le_add_of_nonneg_right hd0))
  have hsp : 0 < nearest (g + nearest (a / g)) := lt_of_lt_of_le (by positivity) hsl
  have hr := representable_half (representable_nearest (g + nearest (a / g)))
    (by rwa [abs_of_pos hsp])
  have hm := denotes_half.rounds_mul hs
  rw [one_div_mul_eq_div] at hm
  refine hm.denotes_of_representable hr ?_
  rw [abs_of_pos (half_pos hsp)]
  calc nearest (g + nearest (a / g)) / 2 < nearest (g + nearest (a / g)) := half_lt_self hsp
    _ ≤ 2 ^ (1023 : ℤ) := nearest_le (representable_zpow (by norm_num)) hsu
    _ < 2 ^ (1024 : ℤ) := zpow_lt_zpow_right₀ (by norm_num) (by norm_num)

/-- The two roundings of a step, together relative to the mean. -/
theorem abs_newton_sub_mean_le (hg : 2 ^ (-1022 : ℤ) ≤ g) (hq : 2 ^ (-1022 : ℤ) ≤ a / g) :
    |newton a g - mean a g| ≤ mean a g * (9 / 2 ^ 55) := by
  have hg0 : 0 < g := lt_of_lt_of_le (by positivity) hg
  have hq0 : 0 < a / g := lt_of_lt_of_le (by positivity) hq
  have h₁ := abs_nearest_sub_le_mul (y := a / g) (by rwa [abs_of_pos hq0])
  have hn : 0 ≤ nearest (a / g) := nearest_nonneg hq0.le
  have hs : 0 < g + nearest (a / g) := add_pos_of_pos_of_nonneg hg0 hn
  have h₂ := abs_nearest_sub_le_mul (y := g + nearest (a / g))
    (by rw [abs_of_pos hs]; exact hg.trans (le_add_of_nonneg_right hn))
  clear hg hq
  rw [abs_of_pos hq0] at h₁
  rw [abs_of_pos hs] at h₂
  unfold newton mean
  rw [abs_le] at h₁ h₂ ⊢
  constructor <;> norm_num at h₁ h₂ ⊢ <;> linarith

theorem mean_pos (ha : 0 < a) (hg : 0 < g) : 0 < mean a g := by
  unfold mean
  positivity

theorem mean_sq_sub (hg : g ≠ 0) : mean a g ^ 2 - a = ((g - a / g) / 2) ^ 2 := by
  unfold mean
  field_simp
  ring

theorem sq_eq (ha : 0 < a) : g ^ 2 = a * (1 + excess a g) := by
  unfold excess
  field_simp
  ring

theorem div_eq_div_excess (ha : 0 < a) (hg : 0 < g) : a / g = g / (1 + excess a g) := by
  have h : 0 < 1 + excess a g := by
    unfold excess
    have : 0 < g ^ 2 / a := by positivity
    linarith
  rw [div_eq_div_iff hg.ne' h.ne', ← sq_eq ha]
  ring

theorem neg_one_lt_excess (ha : 0 < a) (hg : 0 < g) : -1 < excess a g := by
  have : 0 < g ^ 2 / a := by positivity
  unfold excess
  linarith

theorem excess_mean (ha : 0 < a) (hg : 0 < g) :
    excess a (mean a g) = excess a g ^ 2 / (4 * (1 + excess a g)) := by
  unfold excess mean
  field_simp
  ring

theorem excess_mean_eq (ha : 0 < a) (hg : 0 < g) :
    excess a (mean a g) = g ^ 2 / (4 * a) + a / (4 * g ^ 2) - 1 / 2 := by
  unfold excess mean
  field_simp
  ring

theorem excess_mean_nonneg (ha : 0 < a) (hg : 0 < g) : 0 ≤ excess a (mean a g) := by
  rw [excess_mean ha hg]
  have := neg_one_lt_excess ha hg
  exact div_nonneg (sq_nonneg _) (by linarith)

/-- The exact step divides the excess by four, unless the guess is below the root. -/
theorem excess_mean_le {b : ℚ} (ha : 0 < a) (hg : 0 < g) (hl : -(1 / 2 ^ 50) ≤ excess a g)
    (hu : excess a g ≤ b) (hb : 0 ≤ b) : excess a (mean a g) ≤ b / 4 + 1 / 2 ^ 100 := by
  rw [excess_mean ha hg]
  generalize excess a g = e at hl hu
  have he : 0 < 4 * (1 + e) := by norm_num at hl ⊢; linarith
  rw [div_le_iff₀ he]
  rcases le_total 0 e with h0 | h0
  · nlinarith [mul_nonneg h0 hb, mul_nonneg h0 (sub_nonneg.mpr hu)]
  · have h₁ : e ^ 2 ≤ 1 / 2 ^ 100 := by norm_num at hl ⊢; nlinarith
    have h₂ : 1 ≤ 4 * (1 + e) := by norm_num at hl ⊢; linarith
    nlinarith [mul_nonneg hb he.le]

variable {t : ℚ}

theorem excess_newton_bounds (ha : 0 < a) (hg : 0 < g)
    (h : |newton a g - mean a g| ≤ mean a g * (9 / 2 ^ 55)) :
    -(1 / 2 ^ 50) ≤ excess a (newton a g) ∧
      excess a (newton a g) ≤ excess a (mean a g) * (1 + 1 / 2 ^ 50) + 1 / 2 ^ 50 := by
  have hm := mean_pos ha hg
  have hE := excess_mean_nonneg ha hg
  have hsq := sq_eq (g := mean a g) ha
  set E := excess a (mean a g) with hEdef
  rw [abs_le] at h
  have hl : mean a g * (1 - 9 / 2 ^ 55) ≤ newton a g := by linarith
  have hu : newton a g ≤ mean a g * (1 + 9 / 2 ^ 55) := by linarith
  have hn : 0 ≤ mean a g * (1 - 9 / 2 ^ 55) := mul_nonneg hm.le (by norm_num)
  have hl2 : (mean a g * (1 - 9 / 2 ^ 55)) ^ 2 ≤ newton a g ^ 2 := pow_le_pow_left₀ hn hl 2
  have hu2 : newton a g ^ 2 ≤ (mean a g * (1 + 9 / 2 ^ 55)) ^ 2 :=
    pow_le_pow_left₀ (hn.trans hl) hu 2
  rw [mul_pow, hsq] at hl2 hu2
  unfold excess
  rw [le_sub_iff_add_le, sub_le_iff_le_add, le_div_iff₀ ha, div_le_iff₀ ha]
  have hEa : 0 ≤ E * a := mul_nonneg hE ha.le
  norm_num at hl2 hu2 ⊢
  constructor <;> nlinarith

end SquareRoot

end PolyEq
