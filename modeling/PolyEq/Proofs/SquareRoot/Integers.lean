import PolyEq.Proofs.SquareRoot.Convergence

/-! # Square roots that come out as integers

The float root of an integer in the exact range is an integer exactly for the squares, and above
`2 ^ 52` also for their neighbours: the gap between the two roots is then less than the unit in
the last place, or close enough to it for the last sum to be rounded to even.
-/

namespace PolyEq

open Binary64

namespace SquareRoot

/-- `a` is the square of `n`, or close to a square so large that its root is rounded to `n`. -/
def RoundsTo (a n : ℤ) : Prop :=
  a = n ^ 2 ∨ a = n ^ 2 - 1 ∧ 2 ^ 26 < n ∨ a = n ^ 2 + 1 ∧ 2 ^ 26 ≤ n ∨
    (a = n ^ 2 - 2 ∨ a = n ^ 2 + 2) ∧ 89478486 ≤ n

variable {x : Float} {a g r : ℚ} {m n : ℤ}

section
variable (hs : Settled a g) (hu : a ≤ 2 ^ 53)
include hs hu

theorem Settled.lt : g < 2 ^ 27 ∧ a / g < 2 ^ 27 := by
  have hm : g * (a / g) = a := mul_div_cancel₀ a hs.pos.ne'
  have hgap := hs.gap
  have hpos := hs.pos
  generalize a / g = w at *
  rw [abs_le] at hgap
  have hg : g < 2 ^ 27 := by
    by_contra hle
    norm_num at hgap hu hle
    nlinarith
  refine ⟨hg, ?_⟩
  by_contra hle
  norm_num at hgap hu hle hg
  nlinarith

theorem Settled.gap_le : |g - a / g| ≤ 1 / 2 ^ 18 := by
  have hgap := hs.gap
  have hg := (hs.lt hu).1
  norm_num at hgap hg ⊢
  linarith

/-- The exact step overshoots the root by less than any rounding. -/
theorem Settled.mean_sq : a ≤ mean a g ^ 2 ∧ mean a g ^ 2 ≤ a + 1 / 2 ^ 38 := by
  have h := mean_sq_sub (a := a) hs.pos.ne'
  have hgap := hs.gap_le hu
  rw [abs_le] at hgap
  constructor
  · nlinarith [sq_nonneg ((g - a / g) / 2)]
  · norm_num at hgap ⊢
    nlinarith

theorem Settled.mean_lt : mean a g < 94906266 := by
  refine lt_of_pow_lt_pow_left₀ 2 (by norm_num) ((hs.mean_sq hu).2.trans_lt ?_)
  norm_num at hu ⊢
  linarith

theorem Settled.abs_sub_mean : |g - mean a g| ≤ 1 / 2 ^ 19 ∧ |a / g - mean a g| ≤ 1 / 2 ^ 19 := by
  have hgap := hs.gap_le hu
  unfold mean
  rw [abs_le] at *
  rw [abs_le]
  norm_num at hgap ⊢
  constructor <;> constructor <;> linarith

end

theorem abs_newton_sub_le {k : ℕ} (hg : 0 < g) (ha : 0 < a) (hgk : g < 2 ^ k) (hq : a / g < 2 ^ k) :
    |newton a g - mean a g| ≤ 3 / 4 * (2 ^ k / 2 ^ 53) := by
  have hq0 : 0 < a / g := div_pos ha hg
  have h₁ := abs_nearest_sub_le (a / g)
  have h₂ := abs_nearest_sub_le (g + nearest (a / g))
  have hn : nearest (a / g) ≤ 2 ^ k := nearest_le (representable_two_pow k) hq.le
  have hn0 : 0 ≤ nearest (a / g) := nearest_nonneg hq0.le
  have hu₁ := ulp_le_div (y := a / g) (k := k) (by rwa [abs_of_pos hq0])
  have hu₂ := ulp_le_div (y := g + nearest (a / g)) (k := k + 1) (by
    rw [abs_of_pos (by linarith), pow_succ]
    linarith)
  unfold newton mean
  rw [pow_succ] at hu₂
  rw [abs_le] at *
  norm_num at hu₁ hu₂ ⊢
  constructor <;> linarith

theorem Settled.abs_sub_sq_le {d : ℚ} (hs : Settled a g) (ha : 0 < a) (hu : a ≤ 2 ^ 53)
    (hd : |n - mean a g| ≤ d) : |a - n ^ 2| ≤ d * (2 * mean a g + d) + 1 / 2 ^ 38 := by
  have hm := mean_pos ha hs.pos
  obtain ⟨hl, hh⟩ := hs.mean_sq hu
  generalize mean a g = h at *
  have hd0 : 0 ≤ d := (abs_nonneg _).trans hd
  have hsum : |(n : ℚ) + h| ≤ 2 * h + d := by
    have := abs_add_le (n - h : ℚ) (2 * h)
    rw [abs_of_pos (by linarith : 0 < 2 * h)] at this
    calc |(n : ℚ) + h| = |n - h + 2 * h| := by congr 1; ring
      _ ≤ 2 * h + d := by linarith
  have hprod : |n ^ 2 - h ^ 2| ≤ d * (2 * h + d) := by
    rw [sq_sub_sq, abs_mul, mul_comm]
    exact mul_le_mul hd hsum (abs_nonneg _) hd0
  rw [abs_le] at hprod ⊢
  constructor <;> norm_num at hprod hl hh ⊢ <;> linarith

/-- A large enough step is a multiple of a power of two above the tolerance, so it is equal to
every integer it is near to. -/
theorem newton_eq_of_abs_sub_lt (hl : 2 ^ 25 ≤ newton a g) (h : |n - newton a g| < 1 / 2 ^ 33) :
    newton a g = n := by
  unfold newton at *
  have hr := representable_nearest (g + nearest (a / g))
  generalize nearest (g + nearest (a / g)) = s at *
  have hs : 2 ^ ((-26 : ℤ) + 52) ≤ |s| := by
    rw [abs_of_nonneg (by linarith)]
    norm_num at hl ⊢
    linarith
  obtain ⟨m, rfl⟩ := hr.multiple hs
  have hm : (n : ℚ) - m * 2 ^ (-26 : ℤ) / 2 = (n * 2 ^ 27 - m : ℤ) / 2 ^ 27 := by
    push_cast
    norm_num
    ring
  rw [hm, abs_div, abs_of_pos (by positivity : (0 : ℚ) < 2 ^ 27), div_lt_iff₀ (by positivity)] at h
  have h1 : n * 2 ^ 27 = m := by
    apply eq_of_abs_sub_lt_one
    rw [← Int.cast_sub]
    exact h.trans (by norm_num)
  rw [h1, sub_self, Int.cast_zero, zero_div, sub_eq_zero] at hm
  exact hm.symm

theorem Settled.lt_of_lt {N : ℤ} (hs : Settled N g) (h2 : 2 ≤ N) (hlt : N < 2 ^ 52)
    (hN : N ≠ 2 ^ 52 - 1) (hd : |n - mean N g| ≤ 97 / 2 ^ 33) :
    mean N g < 2 ^ 26 ∧ n < 2 ^ 26 := by
  have ha : (0 : ℚ) < N := by exact_mod_cast (by omega : 0 < N)
  have hlt' : (N : ℚ) ≤ 2 ^ 52 - 1 := by exact_mod_cast (by omega : N ≤ 2 ^ 52 - 1)
  have hu : (N : ℚ) ≤ 2 ^ 53 := hlt'.trans (by norm_num)
  have hm : mean N g < 2 ^ 26 := by
    refine lt_of_pow_lt_pow_left₀ 2 (by norm_num) ((hs.mean_sq hu).2.trans_lt ?_)
    norm_num at hlt' ⊢
    linarith
  have hj : |N - n ^ 2| < 2 := by
    have hj := hs.abs_sub_sq_le ha hu hd
    have : |((N - n ^ 2 : ℤ) : ℚ)| < 2 := by
      push_cast
      norm_num at hj hm
      linarith
    exact_mod_cast this
  have hn : n < 2 ^ 26 + 1 := by
    rw [abs_le] at hd
    have : (n : ℚ) < 2 ^ 26 + 1 := by norm_num at hd hm ⊢; linarith
    exact_mod_cast this
  refine ⟨hm, ?_⟩
  by_contra hge
  obtain rfl : n = 2 ^ 26 := by omega
  rw [abs_lt] at hj
  omega

/-- Below `2 ^ 52` the units in the last place are fine enough to tell a square. -/
theorem Settled.eq_sq_of_lt {N : ℤ} (hs : Settled N g) (h2 : 2 ≤ N) (hlt : N < 2 ^ 52)
    (hN : N ≠ 2 ^ 52 - 1) (hd : |n - mean N g| ≤ 97 / 2 ^ 33)
    (h : |n - newton N g| < 1 / 2 ^ 33) : N = n ^ 2 := by
  have ha : (0 : ℚ) < N := by exact_mod_cast (by omega : 0 < N)
  have hu : (N : ℚ) ≤ 2 ^ 53 := by exact_mod_cast (by omega : N ≤ 2 ^ 53)
  obtain ⟨hm, hn⟩ := hs.lt_of_lt h2 hlt hN hd
  have hn' : (n : ℚ) ≤ 2 ^ 26 - 1 := by exact_mod_cast (by omega : n ≤ 2 ^ 26 - 1)
  obtain ⟨hg, hq⟩ := hs.abs_sub_mean hu
  rw [abs_le] at hg hq
  have hr := abs_newton_sub_le (k := 26) hs.pos ha
    (by rw [abs_le] at hd; norm_num at hd hn' hg ⊢; linarith)
    (by rw [abs_le] at hd; norm_num at hd hn' hq ⊢; linarith)
  have hd' : |n - mean N g| ≤ 49 / 2 ^ 33 := by
    calc |n - mean N g| ≤ |n - newton N g| + |newton N g - mean N g| := abs_sub_le _ _ _
      _ ≤ 49 / 2 ^ 33 := by norm_num at h hr ⊢; linarith
  apply eq_of_abs_sub_lt_one
  have hj := hs.abs_sub_sq_le ha hu hd'
  push_cast
  norm_num at hj hm
  linarith

/-- Only a large step has a square that is two away from the radicand. -/
theorem Settled.le_of_abs_sub_eq_two {N : ℤ} (hs : Settled N g) (hge : 2 ^ 52 ≤ N)
    (hu : N ≤ 2 ^ 53) (h : |n - newton N g| < 1 / 2 ^ 33) (h2 : |N - n ^ 2| = 2) :
    89478486 ≤ n := by
  have hge' : (2 : ℚ) ^ 52 ≤ N := by exact_mod_cast hge
  have hu' : (N : ℚ) ≤ 2 ^ 53 := by exact_mod_cast hu
  have ha : (0 : ℚ) < N := by exact_mod_cast (by omega : 0 < N)
  have hm26 : 2 ^ 26 ≤ mean N g := by
    refine le_of_sq_le_sq ?_ (mean_pos ha hs.pos).le
    have := (hs.mean_sq hu').1
    norm_num at hge' ⊢
    linarith
  have hm27 := hs.mean_lt hu'
  obtain ⟨hg, hq⟩ := hs.lt hu'
  have hr := abs_newton_sub_le hs.pos ha hg hq
  have hnl : 2 ^ 25 ≤ newton N g := by
    rw [abs_le] at hr
    norm_num at hr hm26 ⊢
    linarith
  rw [newton_eq_of_abs_sub_lt hnl h] at hr
  have h2' : |(N : ℚ) - n ^ 2| = 2 := by exact_mod_cast h2
  have hj := hs.abs_sub_sq_le ha hu' hr
  have hle : (2 ^ 28 - 1 : ℤ) < 3 * n := by
    have : ((2 ^ 28 - 1 : ℤ) : ℚ) < 3 * n := by
      rw [h2'] at hj
      rw [abs_le] at hr
      norm_num at hj hr ⊢
      linarith
    exact_mod_cast this
  omega

/-- From `2 ^ 52` on the neighbours of a square have its root, once it is large enough. -/
theorem Settled.roundsTo_of_ge {N : ℤ} (hs : Settled N g) (hge : 2 ^ 52 ≤ N) (hu : N ≤ 2 ^ 53)
    (hn : 0 < n) (hd : |n - mean N g| ≤ 97 / 2 ^ 33) (h : |n - newton N g| < 1 / 2 ^ 33) :
    RoundsTo N n := by
  have hu' : (N : ℚ) ≤ 2 ^ 53 := by exact_mod_cast hu
  have ha : (0 : ℚ) < N := by exact_mod_cast (by omega : 0 < N)
  have hm27 := hs.mean_lt hu'
  have hj : |N - n ^ 2| < 3 := by
    have hj := hs.abs_sub_sq_le ha hu' hd
    have : |((N - n ^ 2 : ℤ) : ℚ)| < 3 := by
      push_cast
      norm_num at hj
      linarith
    exact_mod_cast this
  have hfar := hs.le_of_abs_sub_eq_two hge hu h
  have hn27 : 2 ^ 52 < n ^ 2 → 2 ^ 26 < n := fun h => lt_of_pow_lt_pow_left₀ 2 hn.le (by omega)
  rw [abs_lt] at hj
  rcases (by omega : N = n ^ 2 ∨ N = n ^ 2 - 1 ∨ N = n ^ 2 + 1 ∨ N = n ^ 2 - 2 ∨ N = n ^ 2 + 2) with
    h0 | hm1 | hp1 | hm2 | hp2
  · exact .inl h0
  · exact .inr (.inl ⟨hm1, hn27 (by omega)⟩)
  · refine .inr (.inr (.inl ⟨hp1, ?_⟩))
    by_contra hlt
    have : n ≤ 2 ^ 26 - 1 := by omega
    nlinarith
  · exact .inr (.inr (.inr ⟨.inl hm2, hfar (by rw [hm2, sub_sub_cancel_left]; rfl)⟩))
  · exact .inr (.inr (.inr ⟨.inr hp2, hfar (by rw [hp2, add_sub_cancel_left]; rfl)⟩))

/-- Only squares, and numbers next to large squares, have roots that come out as integers. -/
theorem Settled.roundsTo {N : ℤ} (hs : Settled N g) (h2 : 2 ≤ N) (hu : N ≤ 2 ^ 53)
    (hN : N ≠ 2 ^ 52 - 1) (h : |n - newton N g| < 1 / 2 ^ 33) : 0 < n ∧ RoundsTo N n := by
  have h2' : (2 : ℚ) ≤ N := by exact_mod_cast h2
  have hu' : (N : ℚ) ≤ 2 ^ 53 := by exact_mod_cast hu
  have ha : (0 : ℚ) < N := by linarith
  obtain ⟨hg, hq⟩ := hs.lt hu'
  have hm := mean_pos ha hs.pos
  obtain ⟨hsql, hsqu⟩ := hs.mean_sq hu'
  have hr := abs_newton_sub_le hs.pos ha hg hq
  have hd : |n - mean N g| ≤ 97 / 2 ^ 33 := by
    calc |n - mean N g| ≤ |n - newton N g| + |newton N g - mean N g| := abs_sub_le _ _ _
      _ ≤ 97 / 2 ^ 33 := by norm_num at h hr ⊢; linarith
  have hn : 0 < n := by
    have h1 : 1 < mean N g := by nlinarith
    rw [abs_le] at hd
    norm_num at hd
    have : (0 : ℚ) < n := by linarith
    exact_mod_cast this
  refine ⟨hn, ?_⟩
  rcases lt_or_ge N (2 ^ 52) with hlt | hge
  · exact .inl (hs.eq_sq_of_lt h2 hlt hN hd h)
  · exact hs.roundsTo_of_ge hge hu hn hd h

theorem Settled.mean_sub_le (hs : Settled ((n : ℚ) ^ 2) g) (hn : 1 ≤ n)
    (hu : (n : ℚ) ^ 2 ≤ 2 ^ 53) :
    n ≤ mean (n ^ 2) g ∧ mean (n ^ 2) g ≤ n + 1 / 2 ^ 60 := by
  have hn' : (1 : ℚ) ≤ n := by exact_mod_cast hn
  have hg := hs.pos
  have hsub : mean ((n : ℚ) ^ 2) g - n = (g - n) ^ 2 / (2 * g) := by
    unfold mean
    field_simp
    ring
  have hd : |g - n| ≤ 1 / 2 ^ 32 + g / 2 ^ 46 := by
    have hprod : |g - n| * (g + n) = |g - n ^ 2 / g| * g := by
      have h1 : g - n ^ 2 / g = (g - n) * (g + n) / g := by field_simp; ring
      rw [h1, abs_div, abs_mul, abs_of_pos (by linarith : 0 < g + n), abs_of_pos hg,
        div_mul_cancel₀ _ hg.ne']
    have hle : |g - n| ≤ |g - n ^ 2 / g| := by
      have := abs_nonneg (g - n)
      refine le_of_mul_le_mul_right ?_ hg
      rw [← hprod]
      nlinarith
    exact hle.trans hs.gap
  have hg27 := (hs.lt hu).1
  have hg1 : 1 / 2 ≤ g := by
    rw [abs_le] at hd
    norm_num at hd
    linarith
  have hsq : (g - n) ^ 2 ≤ 1 / 2 ^ 60 * (2 * g) := by
    rw [← sq_abs]
    calc |g - n| ^ 2 ≤ (1 / 2 ^ 32 + g / 2 ^ 46) ^ 2 := pow_le_pow_left₀ (abs_nonneg _) hd 2
      _ ≤ 1 / 2 ^ 60 * (2 * g) := by norm_num at hg27 ⊢; nlinarith
  have hnonneg : 0 ≤ (g - n) ^ 2 / (2 * g) := by positivity
  have hle : (g - n) ^ 2 / (2 * g) ≤ 1 / 2 ^ 60 := by
    rw [div_le_iff₀ (by linarith)]
    exact hsq
  constructor <;> linarith

theorem exists_two_pow (hn : 1 ≤ n) (hu : (n : ℚ) ^ 2 ≤ 2 ^ 53) :
    ∃ k ≤ 26, (2 : ℚ) ^ k ≤ n ∧ (n : ℚ) + 1 ≤ 2 ^ (k + 1) := by
  obtain ⟨m, rfl⟩ := Int.eq_ofNat_of_zero_le (by omega : 0 ≤ n)
  have hl : 2 ^ m.log2 ≤ m := Nat.log2_self_le (by omega)
  refine ⟨m.log2, ?_, by exact_mod_cast hl, by exact_mod_cast Nat.lt_log2_self (n := m)⟩
  by_contra hlt
  have h27 : 2 ^ 27 ≤ 2 ^ m.log2 := pow_le_pow_right₀ (by norm_num) (by omega)
  have hsq : m ^ 2 ≤ 2 ^ 53 := by exact_mod_cast hu
  nlinarith

theorem nearest_eq_two_mul_of_le {k : ℕ} {y : ℚ} (hk : k ≤ 26) (hl : (2 : ℚ) ^ k ≤ n)
    (hu : (n : ℚ) + 1 ≤ 2 ^ (k + 1)) (hlo : -(2 ^ k / 2 ^ 53) ≤ y - 2 * n)
    (hhi : y - 2 * n ≤ 2 ^ k / 2 ^ 53 + 1 / 2 ^ 59) : nearest y = 2 * n := by
  have hk1 : (1 : ℚ) ≤ 2 ^ k := one_le_pow₀ (by norm_num)
  have hk2 : (2 : ℚ) ^ k ≤ 2 ^ 26 := pow_le_pow_right₀ (by norm_num) hk
  rw [pow_succ] at hu
  rcases le_or_gt (2 ^ (k + 1)) y with hge | hlt
  · refine nearest_eq_two_mul (k := k + 1) (by omega) hge ?_ ?_
    · rw [pow_succ, pow_succ]
      norm_num at hhi hk2
      linarith
    · rw [abs_sub_comm, abs_le, pow_succ]
      norm_num at hlo hhi ⊢
      constructor <;> linarith
  · refine nearest_eq_two_mul (by omega) ?_ hlt ?_
    · norm_num at hlo
      linarith
    · rw [pow_succ] at hlt
      rw [abs_sub_comm, abs_le]
      constructor <;> linarith

/-- A step for a square gives its root. The rounded quotient is half a unit off at most, and the
sum is then rounded to the even number. -/
theorem Settled.newton_sq (hs : Settled ((n : ℚ) ^ 2) g) (hn : 1 ≤ n) (hu : (n : ℚ) ^ 2 ≤ 2 ^ 53) :
    newton (n ^ 2) g = n := by
  obtain ⟨hml, hmu⟩ := hs.mean_sub_le hn hu
  obtain ⟨-, hq⟩ := hs.abs_sub_mean hu
  have hn0 : (0 : ℚ) < n := by exact_mod_cast (by omega : 0 < n)
  have hq0 : 0 < (n : ℚ) ^ 2 / g := div_pos (by positivity) hs.pos
  have hsum : g + n ^ 2 / g = 2 * mean (n ^ 2) g := by unfold mean; ring
  obtain ⟨k, hk26, hkl, hku⟩ := exists_two_pow hn hu
  unfold newton
  have hr := abs_nearest_sub_le ((n : ℚ) ^ 2 / g)
  have hulp := ulp_le_div (y := (n : ℚ) ^ 2 / g) (k := k + 1) (by
    rw [abs_le] at hq
    rw [abs_of_pos hq0]
    norm_num at hq hmu
    linarith)
  generalize (n : ℚ) ^ 2 / g = w at *
  generalize mean (n ^ 2) g = h at *
  rw [pow_succ] at hulp
  rw [abs_le] at hr
  have hlo : -(2 ^ k / 2 ^ 53) ≤ g + nearest w - 2 * n := by
    norm_num at hulp hr hml ⊢
    linarith
  have hhi : g + nearest w - 2 * n ≤ 2 ^ k / 2 ^ 53 + 1 / 2 ^ 59 := by
    norm_num at hulp hr hmu ⊢
    linarith
  rw [nearest_eq_two_mul_of_le hk26 hkl hku hlo hhi]
  ring

theorem abs_sub_add_le {w : ℚ} (hr : Representable g) (hr' : Representable w) (hg : 2 ^ 26 ≤ g)
    (hw : 2 ^ 26 ≤ w) (h : |2 * n - (g + w)| < 2 / 2 ^ 26) :
    |2 * n - (g + w)| ≤ 2 ^ 27 / 2 ^ 53 := by
  obtain ⟨i, hi⟩ := hr.multiple (e := -26) (by norm_num at hg ⊢; exact hg.trans (le_abs_self g))
  obtain ⟨j, hj⟩ := hr'.multiple (e := -26) (by norm_num at hw ⊢; exact hw.trans (le_abs_self w))
  have hv : 2 * n - (g + w) = (n * 2 ^ 27 - i - j : ℤ) / 2 ^ 26 := by
    rw [hi, hj]
    push_cast
    norm_num
    ring
  rw [hv, abs_div, abs_of_pos (by positivity : (0 : ℚ) < 2 ^ 26)] at h ⊢
  rw [div_lt_div_iff_of_pos_right (by positivity)] at h
  have hlt : |n * 2 ^ 27 - i - j| < 2 := by exact_mod_cast h
  have hle : |((n * 2 ^ 27 - i - j : ℤ) : ℚ)| ≤ 1 := by
    exact_mod_cast (by omega : |n * 2 ^ 27 - i - j| ≤ 1)
  rw [div_le_iff₀ (by positivity)]
  norm_num at hle ⊢
  exact hle

theorem Settled.newton_of_near (hs : Settled a g) (hr : Representable g) (hu : a ≤ 2 ^ 53)
    (ha : 0 < a) (hn : 2 ^ 26 < n) (h : |mean a g - n| < 3 / 2 ^ 28) : newton a g = n := by
  have hn' : (2 : ℚ) ^ 26 + 1 ≤ n := by exact_mod_cast hn
  obtain ⟨hg, hq⟩ := hs.abs_sub_mean hu
  obtain ⟨-, hqu⟩ := hs.lt hu
  have hq0 : 0 < a / g := div_pos ha hs.pos
  have hsum : g + a / g = 2 * mean a g := by unfold mean; ring
  have ht := hs.mean_lt hu
  unfold newton
  generalize a / g = w at *
  generalize mean a g = t at *
  rw [abs_le] at hg hq
  rw [abs_lt] at h
  have hw : |nearest w - w| ≤ 1 / 2 ^ 27 := by
    have := ulp_le_div (y := w) (k := 27) (by rwa [abs_of_pos hq0])
    refine (abs_nearest_sub_le w).trans ?_
    norm_num at this ⊢
    linarith
  have hwl : (2 : ℚ) ^ 26 ≤ w := by norm_num at h hq hn' ⊢; linarith
  have hgl : (2 : ℚ) ^ 26 ≤ g := by norm_num at h hg hn' ⊢; linarith
  have hdist : |2 * n - (g + nearest w)| ≤ 2 ^ 27 / 2 ^ 53 := by
    refine abs_sub_add_le hr (representable_nearest w) hgl
      (le_nearest (representable_two_pow 26) hwl) ?_
    rw [abs_le] at hw
    rw [abs_lt]
    norm_num at h hw ⊢
    constructor <;> linarith
  rw [nearest_eq_two_mul (k := 27) (by norm_num) ?_ ?_ hdist]
  · ring
  · rw [abs_le] at hdist
    norm_num at hdist hn' ⊢
    linarith
  · rw [abs_le] at hdist
    norm_num at hdist ht h ⊢
    linarith

theorem Settled.abs_mean_sub_lt {N : ℤ} (hs : Settled N g) (hu : (N : ℚ) ≤ 2 ^ 53) (hN : 0 < N)
    (hn : 0 < n) (h : 2 ^ 28 * |N - n ^ 2| + 3 ≤ 6 * n) : |mean N g - n| < 3 / 2 ^ 28 := by
  have hm := mean_pos (a := N) (by exact_mod_cast hN) hs.pos
  obtain ⟨hsql, hsqu⟩ := hs.mean_sq hu
  have hn' : (1 : ℚ) ≤ n := by exact_mod_cast hn
  have hj : 2 ^ 28 * |(N : ℚ) - n ^ 2| + 3 ≤ 6 * n := by exact_mod_cast h
  generalize mean N g = t at *
  have hlo : (n : ℚ) - 1 / 2 ≤ t := by
    refine le_of_sq_le_sq ?_ hm.le
    have := neg_abs_le ((N : ℚ) - n ^ 2)
    norm_num at hj
    nlinarith
  have hprod : |t - n| * (t + n) ≤ |(N : ℚ) - n ^ 2| + 1 / 2 ^ 38 := by
    rw [← abs_of_pos (by linarith : 0 < t + n), ← abs_mul, abs_le]
    have h1 := neg_abs_le ((N : ℚ) - n ^ 2)
    have h2 := le_abs_self ((N : ℚ) - n ^ 2)
    norm_num at hsqu ⊢
    constructor <;> nlinarith
  by_contra hge
  rw [not_lt] at hge
  have := mul_le_mul hge (by linarith : 2 * (n : ℚ) - 1 / 2 ≤ t + n) (by linarith) (abs_nonneg _)
  norm_num at this hprod hj
  linarith

theorem Settled.newton_of_roundsTo {N : ℤ} (hs : Settled N g) (hr : Representable g) (hN : 0 < N)
    (hu : N ≤ 2 ^ 53) (hne : N ≠ 2 ^ 52 + 1) (hn : 0 < n) (h : RoundsTo N n) :
    newton N g = n := by
  have hu' : (N : ℚ) ≤ 2 ^ 53 := by exact_mod_cast hu
  have hN' : (0 : ℚ) < N := by exact_mod_cast hN
  have near (hn26 : 2 ^ 26 < n) (h : 2 ^ 28 * |N - n ^ 2| + 3 ≤ 6 * n) : newton N g = n :=
    hs.newton_of_near hr hu' hN' hn26 (hs.abs_mean_sub_lt hu' hN hn h)
  rcases h with rfl | ⟨rfl, hn26⟩ | ⟨rfl, hn26⟩ | ⟨rfl | rfl, hn26⟩
  · rw [Int.cast_pow] at hs hu' ⊢
    exact hs.newton_sq hn hu'
  · refine near hn26 ?_
    rw [sub_sub_cancel_left, abs_neg, abs_one]
    omega
  · have hn26' : n ≠ 2 ^ 26 := fun h => hne (by rw [h]; norm_num)
    refine near (by omega) ?_
    rw [add_sub_cancel_left, abs_one]
    omega
  · refine near (by omega) ?_
    rw [sub_sub_cancel_left, abs_neg, abs_two]
    omega
  · refine near (by omega) ?_
    rw [add_sub_cancel_left, abs_two]
    omega

theorem RoundsTo.le {N : ℤ} (h : RoundsTo N n) : n ^ 2 - 2 ≤ N ∧ N ≤ n ^ 2 + 2 := by
  rcases h with rfl | ⟨rfl, -⟩ | ⟨rfl, -⟩ | ⟨rfl | rfl, -⟩ <;> omega

theorem RoundsTo.lt_or_eq {N : ℤ} (h : RoundsTo N n) : 2 ^ 26 ≤ n ∨ N = n ^ 2 := by
  rcases h with rfl | ⟨rfl, hn⟩ | ⟨rfl, hn⟩ | ⟨-, hn⟩ <;> omega

theorem RoundsTo.eq_of_nonpos {N : ℤ} (h : RoundsTo N n) (hn : 0 < n) (h0 : N ≤ 0) :
    N = n ^ 2 := by
  rcases h.lt_or_eq with hlt | heq
  · have := h.le.1
    nlinarith
  · exact heq

theorem RoundsTo.eq_of_le {N : ℤ} (h : RoundsTo N n) (h' : RoundsTo N m) (hn : 0 < n)
    (hnm : n ≤ m) : n = m := by
  by_contra hne
  have hlt : n + 1 ≤ m := by omega
  have hsq : n ^ 2 + 2 * n + 1 ≤ m ^ 2 := by nlinarith
  obtain ⟨-, hu⟩ := h.le
  obtain ⟨hl, -⟩ := h'.le
  rcases h.lt_or_eq with hn26 | hN
  · omega
  · rcases h'.lt_or_eq with hm26 | hN'
    · nlinarith
    · omega

theorem RoundsTo.unique {N : ℤ} (h : RoundsTo N n) (h' : RoundsTo N m) (hn : 0 < n) (hm : 0 < m) :
    n = m := by
  rcases le_total n m with hnm | hmn
  · exact h.eq_of_le h' hn hnm
  · exact (h'.eq_of_le h hm hmn).symm

/-- The root of an integer next to a large enough square is the root of the square. -/
theorem denotes_sqrt {N : ℤ} (hx : Denotes x N) (h1 : 1 ≤ N) (hu : N ≤ 2 ^ 53) (hn : 0 < n)
    (h : RoundsTo N n) : Denotes (sqrt x) n := by
  rcases h1.eq_or_lt with rfl | h2
  · obtain rfl : n = 1 := h.unique (.inl (by norm_num)) hn one_pos
    rw [Int.cast_one] at hx ⊢
    rw [sqrt_one hx]
    exact denotes_one
  · by_cases hN : N = 2 ^ 52 + 1
    · -- the guesses stand on both sides of `2 ^ 26` here
      subst hN
      obtain rfl : n = 2 ^ 26 := h.unique (.inr (.inr (.inl (by norm_num)))) hn (by norm_num)
      have hd : sqrt (Rounding.ofInteger (2 ^ 52 + 1)) = Rounding.ofInteger (2 ^ 26) := by
        decide +kernel
      rw [hx.eq (denotes_ofInteger (by norm_num)) rfl (by norm_num), hd]
      exact denotes_ofInteger (by norm_num)
    · obtain ⟨g, hr, hs, hd⟩ := sqrt_spec hx (by exact_mod_cast h2) (by exact_mod_cast hu)
      rwa [hs.newton_of_roundsTo hr (by omega) hu hN hn h] at hd

theorem toInteger?_sqrt_eq_some_iff {N : ℤ} (hx : Denotes x N) (h1 : 1 ≤ N) (hu : N ≤ 2 ^ 53) :
    toInteger? (sqrt x) = some n ↔ 0 < n ∧ RoundsTo N n := by
  constructor
  · intro h
    rcases h1.eq_or_lt with rfl | h2
    · rw [Int.cast_one] at hx
      rw [sqrt_one hx, toInteger?_of_denotes (n := 1) (by simpa using denotes_one) (by norm_num),
        Option.some_inj] at h
      subst h
      exact ⟨one_pos, .inl (by norm_num)⟩
    · by_cases hN : N = 2 ^ 52 - 1
      · subst hN
        have hd : toInteger? (sqrt (Rounding.ofInteger (2 ^ 52 - 1))) = none := by decide +kernel
        rw [hx.eq (denotes_ofInteger (by norm_num)) rfl (by norm_num), hd] at h
        cases h
      · obtain ⟨g, -, hs, hd⟩ := sqrt_spec hx (by exact_mod_cast h2) (by exact_mod_cast hu)
        have ht := ((toInteger?_eq_some_iff hd).mp h).2
        exact hs.roundsTo h2 hu hN (ht.trans tolerance_lt)
  · rintro ⟨hn, h⟩
    refine toInteger?_of_denotes (denotes_sqrt hx h1 hu hn h) ?_
    have hle := h.le.1
    rw [abs_of_pos hn]
    nlinarith

theorem exists_denotes_sqrt {N : ℤ} (hx : Denotes x N) (h1 : 1 ≤ N) (hu : N ≤ 2 ^ 53) :
    ∃ r, Denotes (sqrt x) r ∧ |r| ≤ 2 ^ 28 := by
  rcases h1.eq_or_lt with rfl | h2
  · rw [Int.cast_one] at hx
    rw [sqrt_one hx]
    exact ⟨1, denotes_one, by norm_num⟩
  · have hu' : (N : ℚ) ≤ 2 ^ 53 := by exact_mod_cast hu
    have hN : (0 : ℚ) < N := by exact_mod_cast (by omega : 0 < N)
    obtain ⟨g, -, hs, hd⟩ := sqrt_spec hx (by exact_mod_cast h2) hu'
    obtain ⟨hg, hq⟩ := hs.lt hu'
    have hr := abs_newton_sub_le hs.pos hN hg hq
    have hq0 : 0 < N / g := div_pos hN hs.pos
    refine ⟨_, hd, ?_⟩
    have hpos := hs.pos
    unfold mean at hr
    rw [abs_le] at hr ⊢
    norm_num at hr hg hq ⊢
    constructor <;> linarith

end SquareRoot

end PolyEq
