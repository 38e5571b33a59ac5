import PolyEq.Proofs.SquareRoot.Convergence

/-! # The accuracy of square roots

A root is hardly below the exact one. If the iteration meets the tolerance, the square of the root
is above the radicand by little more than the square of the tolerance, apart from rounding. A
hundred steps bring it there by themselves up to `2 ^ 220`, and within `1 / 1700` of the radicand up
to `2 ^ 228`. So up to `10 ^ 60` the square of the root agrees with the radicand in nine digits.
-/

namespace PolyEq

open Binary64

namespace SquareRoot

variable {x y : Float} {a b c g s : ℚ}

/-- What is known of the computed root of a radicand that is not negligible. -/
structure IsRoot (a s : ℚ) : Prop where
  pos : 0 < s
  le_sq : a * (1 - 1 / 2 ^ 50) ≤ s ^ 2
  le : s ≤ 2 ^ 910
  sq_le : a ≤ 2 ^ 228 → s ^ 2 ≤ a * (1 + 1 / 1700) + 107 / 100 * tolerance ^ 2
  sq_le_sharp : a ≤ 2 ^ 220 → s ^ 2 ≤ a * (1 + 1001 / 1000 / 2 ^ 50) + 107 / 100 * tolerance ^ 2

/-- The exact step squares the excess, except for guesses below the root. -/
theorem excess_mean_le_sq (ha : 0 < a) (hg : 0 < g) (hl : -(1 / 2 ^ 50) ≤ excess a g)
    (hu : excess a g ≤ b) (hb : 0 ≤ b) :
    excess a (mean a g) ≤ b ^ 2 / (4 * (1 + b)) + 1 / 2 ^ 100 := by
  rw [excess_mean ha hg]
  generalize excess a g = e at hl hu
  norm_num at hl
  have he : 0 < 4 * (1 + e) := by linarith
  rcases le_total 0 e with h0 | h0
  · have h : e ^ 2 / (4 * (1 + e)) ≤ b ^ 2 / (4 * (1 + b)) := by
      rw [div_le_div_iff₀ he (by positivity)]
      nlinarith [mul_nonneg (mul_nonneg hb h0) (sub_nonneg.mpr hu),
        mul_nonneg (add_nonneg hb h0) (sub_nonneg.mpr hu)]
    norm_num
    linarith
  · have h : e ^ 2 / (4 * (1 + e)) ≤ 1 / 2 ^ 100 := by
      rw [div_le_iff₀ he]
      norm_num
      nlinarith
    have : 0 ≤ b ^ 2 / (4 * (1 + b)) := by positivity
    linarith

section
variable (hx : Denotes x a) (hl : tolerance ≤ a)
include hx hl

theorem IsGuess.contract (h : IsGuess a b y g) (hb0 : 0 ≤ b) (hb : b ≤ 100)
    (hc : (b ^ 2 / (4 * (1 + b)) + 1 / 2 ^ 100) * (1 + 1 / 2 ^ 50) + 1 / 2 ^ 50 ≤ c) :
    IsGuess a c (SquareRoot.step x y) (newton a g) := by
  have ha : 0 < a := tolerance_pos.trans_le hl
  have he := excess_mean_le_sq ha h.pos h.le_excess h.excess_le hb0
  refine (h.next hx hl (hb.trans ?_) he).mono hc
  calc (100 : ℚ) ≤ 2 ^ 7 := by norm_num
    _ ≤ 2 ^ 991 := pow_le_pow_right₀ (by norm_num) (by norm_num)

theorem excess_last_le (hu : a ≤ 2 ^ 228) :
    ∃ s, IsGuess a (1 / 1700) ((step x)^[100] (start x)) s := by
  obtain ⟨g, h⟩ := isGuess_run hx hl 96
  have hb : (2 ^ 40 + a / 2 ^ 35) * (251 / 1000) ^ 96 + 1 / 2 ^ 48 ≤ (294 / 100 : ℚ) := by
    norm_num at hu ⊢
    linarith
  have h := (h.mono hb).contract hx hl (by norm_num) (by norm_num) (c := 549 / 1000) (by norm_num)
  have h := h.contract hx hl (by norm_num) (by norm_num) (c := 487 / 10000) (by norm_num)
  have h := h.contract hx hl (by norm_num) (by norm_num) (c := 1 / 1700) (by norm_num)
  simp only [← Function.iterate_succ_apply'] at h
  exact ⟨_, h⟩

theorem excess_last_le_sharp (hu : a ≤ 2 ^ 220) :
    ∃ s, IsGuess a (1001 / 1000 / 2 ^ 50) ((step x)^[100] (start x)) s := by
  obtain ⟨g, h⟩ := isGuess_run hx hl 93
  have hb : (2 ^ 40 + a / 2 ^ 35) * (251 / 1000) ^ 93 + 1 / 2 ^ 48 ≤ (3 / 4 : ℚ) := by
    norm_num at hu ⊢
    linarith
  have h := (h.mono hb).contract hx hl (by norm_num) (by norm_num) (c := 1 / 12) (by norm_num)
  have h := h.contract hx hl (by norm_num) (by norm_num) (c := 1 / 600) (by norm_num)
  have h := h.contract hx hl (by norm_num) (by norm_num) (c := 1 / 2 ^ 20) (by norm_num)
  have h := h.contract hx hl (by norm_num) (by norm_num) (c := 1 / 2 ^ 41) (by norm_num)
  have h := h.contract hx hl (by norm_num) (by norm_num) (c := 1 / 2 ^ 49) (by norm_num)
  have h := h.contract hx hl (by norm_num) (by norm_num) (c := 1001 / 1000 / 2 ^ 50) (by norm_num)
  simp only [← Function.iterate_succ_apply'] at h
  exact ⟨_, h⟩

end

/-- A step within the tolerance of its guess exceeds the root by the square of the tolerance. -/
theorem newton_sq_le_of_near (ha : 0 < a) (hg : 0 < g)
    (hr : |newton a g - mean a g| ≤ mean a g * (9 / 2 ^ 55)) (hn : |newton a g - g| < tolerance) :
    newton a g ^ 2 ≤ a * (1 + 1 / 2 ^ 50) + 107 / 100 * tolerance ^ 2 := by
  have hm := mean_pos ha hg
  have hsq : mean a g ^ 2 - a = (mean a g - g) ^ 2 := by
    rw [mean_sq_sub hg.ne']
    unfold mean
    ring
  have htri : |mean a g - g| ≤ tolerance + mean a g * (9 / 2 ^ 55) := by
    have := abs_sub_le (mean a g) (newton a g) g
    rw [abs_sub_comm (mean a g) (newton a g)] at this
    linarith
  have hnm : newton a g ^ 2 ≤ (mean a g * (1 + 9 / 2 ^ 55)) ^ 2 := by
    refine sq_le_sq' ?_ ?_ <;> rw [abs_le] at hr <;> norm_num at hr ⊢ <;> linarith
  have hgap : (mean a g - g) ^ 2 ≤ (tolerance + mean a g * (9 / 2 ^ 55)) ^ 2 :=
    sq_le_sq' (neg_le_of_abs_le htri) (le_of_abs_le htri)
  clear hr hn htri
  generalize mean a g = m at *
  generalize tolerance = t at *
  have hmt : m ^ 2 * (1 - 17 * (9 / 2 ^ 55) ^ 2) ≤ a + 17 / 16 * t ^ 2 := by
    nlinarith [sq_nonneg (t - 16 * (m * (9 / 2 ^ 55)))]
  calc newton a g ^ 2 ≤ m ^ 2 * (1 + 9 / 2 ^ 55) ^ 2 := by rwa [← mul_pow]
    _ ≤ m ^ 2 * ((1 - 17 * (9 / 2 ^ 55) ^ 2) * (1 + 1 / 2 ^ 50)) := by
      gcongr
      norm_num
    _ ≤ (a + 17 / 16 * t ^ 2) * (1 + 1 / 2 ^ 50) := by
      rw [← mul_assoc]
      gcongr
    _ ≤ a * (1 + 1 / 2 ^ 50) + 107 / 100 * t ^ 2 := by
      norm_num
      nlinarith [sq_nonneg t]

theorem le_sq_of_le_excess (ha : 0 < a) (h : -(1 / 2 ^ 50) ≤ excess a s) :
    a * (1 - 1 / 2 ^ 50) ≤ s ^ 2 := by
  rw [sq_eq ha]
  gcongr
  linarith

theorem sq_le_of_excess_le (ha : 0 < a) (h : excess a s ≤ b) : s ^ 2 ≤ a * (1 + b) := by
  rw [sq_eq ha]
  gcongr

theorem isRoot_of_near (hx : Denotes x a) (ha : 0 < a) (h : Steps x y a g)
    (hn : |newton a g - g| < tolerance) : IsRoot a (newton a g) := by
  have hlo := (excess_newton_bounds ha h.pos h.rounding).1
  have hle := newton_sq_le_of_near ha h.pos h.rounding hn
  have ht := tolerance_lt
  have ht0 := tolerance_pos
  refine ⟨h.newton_pos ha, le_sq_of_le_excess ha hlo, ?_, fun _ => hle.trans ?_,
    fun _ => hle.trans ?_⟩
  · refine le_of_sq_le_sq ?_ (by positivity)
    calc newton a g ^ 2 ≤ 2 * (1 + a) := by
          norm_num at ht hle ⊢
          nlinarith
      _ ≤ 2 * 2 ^ 1025 := by
        gcongr
        exact one_add_le_two_pow ((le_abs_self a).trans hx.lt.le)
      _ = 2 ^ 1026 := (pow_succ' _ _).symm
      _ ≤ 2 ^ (910 * 2) := pow_le_pow_right₀ (by norm_num) (by norm_num)
      _ = (2 ^ 910) ^ 2 := pow_mul 2 910 2
  · gcongr
    norm_num
  · gcongr
    norm_num

theorem hundredth_le (hx : Denotes x a) :
    (2 ^ 40 + a / 2 ^ 35) * (251 / 1000) ^ 99 + 1 / 2 ^ 48 ≤ 2 ^ 794 := by
  have h : (2 ^ 40 + a / 2 ^ 35) * (251 / 1000) ^ 99 ≤ 2 ^ 793 :=
    calc (2 ^ 40 + a / 2 ^ 35) * (251 / 1000) ^ 99 ≤ 2 ^ 990 * (1 / 2 ^ 197) := by
          gcongr
          · exact first_excess_le hx
          · norm_num
      _ = 2 ^ 793 * 2 ^ 197 * (1 / 2 ^ 197) := by rw [← pow_add]
      _ = 2 ^ 793 := by rw [mul_assoc, mul_one_div_cancel (by positivity), mul_one]
  refine le_trans ?_ (one_add_le_two_pow h)
  rw [add_comm]
  gcongr
  norm_num

theorem isRoot_last (hx : Denotes x a) (hl : tolerance ≤ a) :
    ∃ s, Denotes ((step x)^[100] (start x)) s ∧ IsRoot a s := by
  have ha : 0 < a := tolerance_pos.trans_le hl
  obtain ⟨s, h⟩ := isGuess_run hx hl 99
  refine ⟨s, h.denotes, h.pos, le_sq_of_le_excess ha h.le_excess, ?_, fun hu => ?_, fun hu => ?_⟩
  · refine le_of_sq_le_sq ?_ (by positivity)
    calc s ^ 2 ≤ a * (1 + 2 ^ 794) := sq_le_of_excess_le ha (h.excess_le.trans (hundredth_le hx))
      _ ≤ 2 ^ 1024 * 2 ^ 795 := by
        gcongr
        · exact (le_abs_self a).trans hx.lt.le
        · exact one_add_le_two_pow le_rfl
      _ = 2 ^ 1819 := (pow_add _ _ _).symm
      _ ≤ 2 ^ (910 * 2) := pow_le_pow_right₀ (by norm_num) (by norm_num)
      _ = (2 ^ 910) ^ 2 := pow_mul 2 910 2
  · obtain ⟨s', h'⟩ := excess_last_le hx hl hu
    obtain rfl := h.denotes.value_eq.symm.trans h'.denotes.value_eq
    exact (sq_le_of_excess_le ha h'.excess_le).trans (le_add_of_nonneg_right (by positivity))
  · obtain ⟨s', h'⟩ := excess_last_le_sharp hx hl hu
    obtain rfl := h.denotes.value_eq.symm.trans h'.denotes.value_eq
    exact (sq_le_of_excess_le ha h'.excess_le).trans (le_add_of_nonneg_right (by positivity))

theorem isRoot_one : IsRoot 1 1 := by
  refine ⟨one_pos, by norm_num, one_le_pow₀ (by norm_num), fun _ => ?_, fun _ => ?_⟩
  · have : 0 ≤ tolerance ^ 2 := by positivity
    norm_num
    linarith
  · have : 0 ≤ tolerance ^ 2 := by positivity
    norm_num
    linarith

theorem exists_isRoot (hx : Denotes x a) (hl : tolerance ≤ a) :
    ∃ s, Denotes (sqrt x) s ∧ IsRoot a s := by
  have ha : 0 < a := tolerance_pos.trans_le hl
  rcases eq_or_ne a 1 with rfl | h1
  · exact ⟨1, sqrt_one hx ▸ denotes_one, isRoot_one⟩
  · obtain ⟨y, g, hs, heq, hn⟩ | heq := sqrt_cases hx hl h1 <;> rw [heq]
    · exact ⟨_, hs.next, isRoot_of_near hx ha hs hn⟩
    · exact isRoot_last hx hl

theorem sqrt_of_le_zero (h : x ≤ 0) : sqrt x = 0 := by
  rw [sqrt, of, if_pos h]

theorem sqrt_of_lt_tolerance (hx : Denotes x a) (h0 : 0 < a) (hl : a < tolerance) : sqrt x = x := by
  have hle : ¬ x ≤ 0 := by
    rw [hx.le_iff denotes_zero]
    exact h0.not_ge
  have h1 : ¬ (x == 1) = true := by
    rw [hx.beq_iff denotes_one]
    rintro rfl
    exact absurd hl (by norm_num [tolerance])
  rw [sqrt, of, if_neg hle, if_neg h1, if_pos ((hx.lt_iff denotes_epsilon).mpr hl)]

/-- Up to `2 ^ 220` the square of the root is off by a rounding error and the square of the
tolerance. -/
theorem IsRoot.abs_sq_sub_le (h : IsRoot a s) (ha : 0 ≤ a) (hu : a ≤ 2 ^ 220) :
    |s ^ 2 - a| ≤ a * (1001 / 1000 / 2 ^ 50) + 107 / 100 * tolerance ^ 2 := by
  have hlo := h.le_sq
  have hhi := h.sq_le_sharp hu
  have ht : 0 ≤ tolerance ^ 2 := sq_nonneg _
  rw [abs_le]
  norm_num at hlo hhi ⊢
  constructor <;> linarith

end SquareRoot

/-- The square of a root is near the radicand, over sixty orders of magnitude. -/
theorem abs_sqrt_sq_sub_le {x : Float} (hx : x.isFinite = true) (h0 : 0 ≤ value x)
    (hu : value x ≤ 10 ^ 60) :
    (sqrt x).isFinite = true ∧ |value (sqrt x) ^ 2 - value x| ≤ max (value x) 1 / 10 ^ 9 := by
  have hd := denotes_value hx
  have ht : tolerance < 1 / 10 ^ 9 := by norm_num [tolerance]
  have ht2 : 107 / 100 * tolerance ^ 2 ≤ 1 / 10 ^ 10 := by norm_num [tolerance]
  generalize value x = a at *
  have hmax : a ≤ max a 1 := le_max_left a 1
  have hmax1 : 1 ≤ max a 1 := le_max_right a 1
  rcases h0.eq_or_lt with rfl | hpos
  · rw [SquareRoot.sqrt_of_le_zero ((hd.le_iff denotes_zero).mpr le_rfl)]
    refine ⟨denotes_zero.isFinite, ?_⟩
    norm_num
  rcases lt_or_ge a tolerance with hlt | hle
  · rw [SquareRoot.sqrt_of_lt_tolerance hd hpos hlt, hd.value_eq]
    refine ⟨hd.isFinite, ?_⟩
    have hsq : |a ^ 2 - a| ≤ a := by
      rw [abs_le]
      norm_num at ht
      constructor <;> nlinarith
    linarith
  · obtain ⟨s, hs, hroot⟩ := SquareRoot.exists_isRoot hd hle
    have hbound := hroot.abs_sq_sub_le hpos.le (hu.trans (by norm_num))
    rw [hs.value_eq]
    refine ⟨hs.isFinite, hbound.trans ?_⟩
    norm_num at ht2 ⊢
    linarith

/-- Close to the end of this range the iteration is far from its first guess. -/
theorem abs_sqrt_sq_sub_le_two_pow : ∃ x : Float, x = Rounding.ofInteger (2 ^ 199) ∧
    x.isFinite = true ∧ 0 ≤ value x ∧ value x ≤ 10 ^ 60 ∧
      (sqrt x).isFinite = true ∧ |value (sqrt x) ^ 2 - value x| ≤ max (value x) 1 / 10 ^ 9 := by
  have hd : Denotes (Rounding.ofInteger (2 ^ 199)) (2 ^ 199) := by
    have hr := rounds_ofInteger (2 ^ 199)
    rw [Int.cast_pow, Int.cast_ofNat] at hr
    refine hr.denotes_of_representable (representable_two_pow 199) ?_
    rw [abs_of_pos (by positivity), ← zpow_natCast]
    exact zpow_lt_zpow_right₀ (by norm_num) (by norm_num)
  have h0 : 0 ≤ value (Rounding.ofInteger (2 ^ 199)) := by
    rw [hd.value_eq]
    positivity
  have hu : value (Rounding.ofInteger (2 ^ 199)) ≤ 10 ^ 60 := by
    rw [hd.value_eq]
    norm_num
  exact ⟨_, rfl, hd.isFinite, h0, hu, abs_sqrt_sq_sub_le hd.isFinite h0 hu⟩

end PolyEq
