import PolyEq.Proofs.Binary64.Special
import PolyEq.Proofs.SquareRoot.Newton

/-! # The last guess

The excess of the guesses shrinks by a factor below `0.251` in each step, down to a few units
in the last place. So whether the iteration meets the tolerance or runs out of steps, its result
is one step from a guess that is settled: the guess and the quotient nearly agree.
-/

namespace PolyEq

open Binary64

namespace SquareRoot

def step (x y : Float) : Float :=
  improve x (clamp y)

variable {x y : Float} {a b g : ℚ}

/-- `y` is a positive guess that is hardly below the root of `a`, and its excess is at most `b`. -/
structure IsGuess (a b : ℚ) (y : Float) (g : ℚ) : Prop where
  denotes : Denotes y g
  pos : 0 < g
  le_excess : -(1 / 2 ^ 50) ≤ excess a g
  excess_le : excess a g ≤ b

theorem IsGuess.mono {c : ℚ} (h : IsGuess a b y g) (hc : b ≤ c) : IsGuess a c y g :=
  ⟨h.denotes, h.pos, h.le_excess, h.excess_le.trans hc⟩

structure Settled (a g : ℚ) : Prop where
  pos : 0 < g
  gap : |g - a / g| ≤ 1 / 2 ^ 32 + g / 2 ^ 46

theorem one_add_le_two_pow {e : ℚ} {n : ℕ} (h : e ≤ 2 ^ n) : 1 + e ≤ 2 ^ (n + 1) := by
  have h1 : (1 : ℚ) ≤ 2 ^ n := one_le_pow₀ (by norm_num)
  rw [pow_succ]
  linarith

theorem clamp_eq (h : Denotes y g) (hg : tolerance ≤ g) : clamp y = y := by
  have hn : ¬ isNegligible y = true := by
    rw [isNegligible_iff h, abs_of_nonneg (tolerance_pos.le.trans hg)]
    exact not_lt.mpr hg
  rw [clamp, if_neg hn]

theorem excess_bound_le (hb0 : 0 ≤ b) (hb : b ≤ 2 ^ 990) (k : ℕ) :
    b * (251 / 1000) ^ k + 1 / 2 ^ 48 ≤ 2 ^ 991 := by
  have hq : (251 / 1000 : ℚ) ^ k ≤ 1 := pow_le_one₀ (by norm_num) (by norm_num)
  have hbk : b * (251 / 1000) ^ k ≤ b := mul_le_of_le_one_right hb0 hq
  refine le_trans ?_ (one_add_le_two_pow (hbk.trans hb))
  rw [add_comm]
  gcongr
  norm_num

/-- A positive guess that the loop improves, and its rounded step. -/
structure Steps (x y : Float) (a g : ℚ) : Prop where
  denotes : Denotes (clamp y) g
  pos : 0 < g
  next : Denotes (step x y) (newton a g)
  rounding : |newton a g - mean a g| ≤ mean a g * (9 / 2 ^ 55)

theorem Steps.newton_pos (h : Steps x y a g) (ha : 0 < a) : 0 < newton a g := by
  have hm := mean_pos ha h.pos
  have hr := h.rounding
  rw [abs_le] at hr
  norm_num at hr
  linarith

section
variable (hx : Denotes x a) (hl : tolerance ≤ a)
include hx hl

theorem IsGuess.range (h : IsGuess a b y g) (hb : b ≤ 2 ^ 991) :
    1 / 2 ^ 18 ≤ g ∧ g ≤ 2 ^ 1008 := by
  have ha : 0 < a := tolerance_pos.trans_le hl
  have ht := lt_tolerance
  have hsq := sq_eq (g := g) ha
  have he := h.le_excess
  have he' := one_add_le_two_pow (h.excess_le.trans hb)
  norm_num at he
  constructor
  · refine le_of_sq_le_sq ?_ h.pos.le
    calc (1 / 2 ^ 18 : ℚ) ^ 2 ≤ 1 / 2 ^ 34 * (1 / 2) := by norm_num
      _ ≤ a * (1 + excess a g) :=
        mul_le_mul (ht.le.trans hl) (by linarith) (by norm_num) ha.le
      _ = g ^ 2 := hsq.symm
  · refine le_of_sq_le_sq ?_ (by positivity)
    calc g ^ 2 = a * (1 + excess a g) := hsq
      _ ≤ 2 ^ 1024 * 2 ^ 992 :=
        mul_le_mul ((le_abs_self a).trans hx.lt.le) he' (by linarith) (by positivity)
      _ = 2 ^ 2016 := (pow_add _ _ _).symm
      _ = (2 ^ 1008) ^ 2 := pow_mul 2 1008 2

theorem IsGuess.quotient_range (h : IsGuess a b y g) (hb : b ≤ 2 ^ 991) :
    1 / 2 ^ 1010 ≤ a / g ∧ a / g ≤ 2 ^ 1009 := by
  have ha : 0 < a := tolerance_pos.trans_le hl
  obtain ⟨hgl, hgu⟩ := h.range hx hl hb
  have he := h.le_excess
  have he' := one_add_le_two_pow (h.excess_le.trans hb)
  norm_num at he
  rw [div_eq_div_excess ha h.pos]
  constructor
  · calc (1 : ℚ) / 2 ^ 1010 = 1 / 2 ^ 18 / 2 ^ 992 := by rw [div_div, ← pow_add]
      _ ≤ g / (1 + excess a g) := div_le_div₀ h.pos.le hgl (by linarith) he'
  · calc g / (1 + excess a g) ≤ g / (1 / 2) :=
        div_le_div_of_nonneg_left h.pos.le (by norm_num) (by linarith)
      _ = 2 * g := by ring
      _ ≤ 2 * 2 ^ 1008 := by gcongr
      _ = 2 ^ 1009 := (pow_succ' _ _).symm

theorem IsGuess.steps (h : IsGuess a b y g) (hb : b ≤ 2 ^ 991) : Steps x y a g := by
  have ha : 0 < a := tolerance_pos.trans_le hl
  obtain ⟨hgl, hgu⟩ := h.range hx hl hb
  obtain ⟨hql, hqu⟩ := h.quotient_range hx hl hb
  have ht := tolerance_lt
  have hc : clamp y = y := clamp_eq h.denotes (by norm_num at hgl ht ⊢; linarith)
  refine ⟨hc.symm ▸ h.denotes, h.pos, ?_, abs_newton_sub_mean_le ?_ ?_⟩
  · rw [step, hc]
    refine denotes_improve hx h.denotes ha.le (le_trans ?_ hgl) (hgu.trans ?_) (hqu.trans ?_)
    · exact zpow_le_one_div_two_pow (by norm_num)
    · exact two_pow_le_zpow (by norm_num)
    · exact two_pow_le_zpow (by norm_num)
  · exact le_trans (zpow_le_one_div_two_pow (by norm_num)) hgl
  · exact le_trans (zpow_le_one_div_two_pow (by norm_num)) hql

theorem IsGuess.next {c : ℚ} (h : IsGuess a b y g) (hb : b ≤ 2 ^ 991)
    (hc : excess a (mean a g) ≤ c) :
    IsGuess a (c * (1 + 1 / 2 ^ 50) + 1 / 2 ^ 50) (step x y) (newton a g) := by
  have ha : 0 < a := tolerance_pos.trans_le hl
  have hs := h.steps hx hl hb
  obtain ⟨hlo, hhi⟩ := excess_newton_bounds ha h.pos hs.rounding
  refine ⟨hs.next, hs.newton_pos ha, hlo, hhi.trans ?_⟩
  gcongr

theorem IsGuess.step (h : IsGuess a b y g) (hb0 : 0 ≤ b) (hb : b ≤ 2 ^ 991) :
    IsGuess a (251 / 1000 * b + 1 / 2 ^ 49) (step x y) (newton a g) := by
  have ha : 0 < a := tolerance_pos.trans_le hl
  have he := excess_mean_le ha h.pos h.le_excess h.excess_le hb0
  refine (h.next hx hl hb he).mono ?_
  norm_num
  linarith

theorem IsGuess.iterate (h : IsGuess a b y g) (hb0 : 0 ≤ b) (hb : b ≤ 2 ^ 990) (k : ℕ) :
    ∃ g', IsGuess a (b * (251 / 1000) ^ k + 1 / 2 ^ 48) ((SquareRoot.step x)^[k] y) g' := by
  induction k with
  | zero => exact ⟨g, h.mono (by simp)⟩
  | succ k ih =>
    obtain ⟨g', ih⟩ := ih
    have hn : 0 ≤ b * (251 / 1000) ^ k := mul_nonneg hb0 (by positivity)
    have hs := ih.step hx hl (by positivity) (excess_bound_le hb0 hb k)
    rw [Function.iterate_succ_apply']
    refine ⟨_, hs.mono ?_⟩
    rw [pow_succ (251 / 1000 : ℚ), ← mul_assoc]
    generalize b * (251 / 1000) ^ k = c
    norm_num
    linarith

end

/-- The iteration returns the guess after some step, and either the guess before it is within
the tolerance or no step is left. -/
theorem iterate_eq (x : Float) (n : ℕ) (y : Float) :
    ∃ i ≤ n, (iterate x (n + 1) y).value = (step x)^[i + 1] y ∧
      (i < n → isNegligible ((step x)^[i + 1] y - clamp ((step x)^[i] y)) = true) := by
  induction n generalizing y with
  | zero =>
    refine ⟨0, le_rfl, ?_, fun h => absurd h (lt_irrefl 0)⟩
    unfold iterate
    dsimp only
    split_ifs <;> rfl
  | succ n ih =>
    unfold iterate
    dsimp only
    split_ifs with h
    · exact ⟨0, Nat.zero_le _, rfl, fun _ => h⟩
    · obtain ⟨i, hi, hv, hn⟩ := ih (improve x (clamp y))
      exact ⟨i + 1, by omega, hv, fun h => hn (by omega)⟩

/-- A first guess between the root and the radicand, or so large a part of the radicand. -/
structure IsStart (a g : ℚ) : Prop where
  tolerance_le : tolerance ≤ g
  le : g ≤ 2 ^ 1008
  le_quotient : 1 ≤ a / g
  quotient_le : a / g ≤ 2 ^ 17
  excess_le : excess a (mean a g) ≤ 2 ^ 39 + 7 / 8 * (a / 2 ^ 35)

theorem IsStart.pos (h : IsStart a g) : 0 < g :=
  tolerance_pos.trans_le h.tolerance_le

theorem isStart_half (hl : tolerance ≤ a) (hu : a ≤ 10 ^ 10) (hg : tolerance ≤ g) (h1 : a / 2 ≤ g)
    (h2 : g ≤ a) : IsStart a g := by
  have ha : 0 < a := tolerance_pos.trans_le hl
  have hg0 : 0 < g := tolerance_pos.trans_le hg
  have ht := lt_tolerance
  refine ⟨hg, ?_, ?_, ?_, ?_⟩
  · calc g ≤ 2 ^ 34 := by norm_num at hu ⊢; linarith
      _ ≤ 2 ^ 1008 := pow_le_pow_right₀ (by norm_num) (by norm_num)
  · rwa [le_div_iff₀ hg0, one_mul]
  · rw [div_le_iff₀ hg0]
    norm_num
    linarith
  · rw [excess_mean_eq ha hg0]
    have hs : g ^ 2 / (4 * a) ≤ 10 ^ 10 := by
      rw [div_le_iff₀ (by positivity)]
      nlinarith
    have hq : a / (4 * g ^ 2) ≤ 2 ^ 34 := by
      rw [div_le_iff₀ (by positivity)]
      norm_num at ht ⊢
      nlinarith
    have : 0 ≤ a / 2 ^ 35 := by positivity
    norm_num at hs hq ⊢
    linarith

theorem isStart_part (hx : Denotes x a) (hl : 10 ^ 10 < a) : IsStart a (nearest (a / 10 ^ 5)) := by
  have ha : 0 < a := by linarith
  have hq : 0 < a / 10 ^ 5 := by positivity
  have hq5 : 10 ^ 5 ≤ a / 10 ^ 5 := by
    rw [le_div_iff₀ (by norm_num)]
    norm_num at hl ⊢
    linarith
  have hr := abs_nearest_sub_le_mul (y := a / 10 ^ 5) (by
    rw [abs_of_pos hq]
    exact (zpow_le_one_of_nonpos₀ (by norm_num) (by norm_num)).trans (le_trans (by norm_num) hq5))
  rw [abs_of_pos hq, abs_le] at hr
  have hv : a = 10 ^ 5 * (a / 10 ^ 5) := by ring
  have hle : nearest (a / 10 ^ 5) ≤ 2 ^ 1008 := by
    refine nearest_le (representable_two_pow 1008) ?_
    rw [div_le_iff₀ (by norm_num)]
    calc a ≤ 2 ^ 1024 := (le_abs_self a).trans hx.lt.le
      _ = 2 ^ 1008 * 2 ^ 16 := by rw [← pow_add]
      _ ≤ 2 ^ 1008 * 10 ^ 5 := by gcongr; norm_num
  generalize nearest (a / 10 ^ 5) = g at *
  generalize a / 10 ^ 5 = q at *
  subst hv
  norm_num at hr hq5
  have hg0 : 0 < g := by linarith
  have ht := tolerance_lt
  norm_num at ht
  refine ⟨by linarith, hle, ?_, ?_, ?_⟩
  · rw [le_div_iff₀ hg0]
    norm_num
    linarith
  · rw [div_le_iff₀ hg0]
    norm_num
    linarith
  · rw [excess_mean_eq ha hg0]
    have hs : g ^ 2 / (4 * (10 ^ 5 * q)) ≤ 7 / 8 * (10 ^ 5 * q / 2 ^ 35) := by
      rw [div_le_iff₀ (by positivity)]
      norm_num
      nlinarith
    have hp : 10 ^ 5 * q / (4 * g ^ 2) ≤ 1 := by
      rw [div_le_one (by positivity)]
      norm_num
      nlinarith
    norm_num at hs hp ⊢
    linarith

theorem exists_isStart (hx : Denotes x a) (hl : tolerance ≤ a) :
    ∃ g, Denotes (clamp (start x)) g ∧ IsStart a g := by
  have ht := lt_tolerance
  have hlarge : Denotes largeRadicand ((10 ^ 10 : ℤ) : ℚ) := denotes_of_eq (by rfl) (by norm_num)
  have hdiv : Denotes largeDivisor ((10 ^ 5 : ℤ) : ℚ) := denotes_of_eq (by rfl) (by norm_num)
  rw [Int.cast_pow, Int.cast_ofNat] at hlarge hdiv
  unfold start
  split_ifs with h
  · have hlt := (hlarge.lt_iff hx).mp h
    have hs := isStart_part hx hlt
    have hd := (hx.rounds_div hdiv (by norm_num)).denotes_of_lt (by
      rw [abs_of_pos hs.pos]
      refine hs.le.trans_lt ?_
      rw [← zpow_natCast]
      exact zpow_lt_zpow_right₀ (by norm_num) (by norm_num))
    exact ⟨_, (clamp_eq hd hs.tolerance_le).symm ▸ hd, hs⟩
  · have hle := not_lt.mp (mt (hlarge.lt_iff hx).mpr h)
    have hr : Representable (a / 2) := representable_half hx.representable (by
      rw [abs_of_pos (tolerance_pos.trans_le hl)]
      exact (zpow_le_one_div_two_pow (by norm_num)).trans (ht.le.trans hl))
    have hd := (hx.rounds_div denotes_two (by norm_num)).denotes_of_representable hr (by
      rw [abs_of_pos (half_pos (tolerance_pos.trans_le hl))]
      refine (half_lt_self (tolerance_pos.trans_le hl)).trans ?_
      exact_mod_cast (le_abs_self a).trans_lt hx.lt)
    rcases le_or_gt tolerance (a / 2) with hh | hh
    · exact ⟨_, (clamp_eq hd hh).symm ▸ hd,
        isStart_half hl hle hh le_rfl (half_le_self (tolerance_pos.le.trans hl))⟩
    · -- the half is too small to divide by, and the tolerance is taken
      have hn : isNegligible (x / 2) = true := by
        rwa [isNegligible_iff hd, abs_of_pos (half_pos (tolerance_pos.trans_le hl))]
      rw [clamp, if_pos hn]
      exact ⟨_, denotes_epsilon, isStart_half hl hle le_rfl hh.le hl⟩

section
variable (hx : Denotes x a) (hl : tolerance ≤ a)
include hx hl

theorem IsStart.steps (hy : Denotes (clamp y) g) (h : IsStart a g) : Steps x y a g := by
  have ha : 0 < a := tolerance_pos.trans_le hl
  have ht := lt_tolerance
  have h1 : (2 : ℚ) ^ (-1022 : ℤ) ≤ 1 := zpow_le_one_of_nonpos₀ (by norm_num) (by norm_num)
  have hg : (2 : ℚ) ^ (-1000 : ℤ) ≤ g :=
    (zpow_le_one_div_two_pow (by norm_num)).trans (ht.le.trans h.tolerance_le)
  have hg' : (2 : ℚ) ^ (-1022 : ℤ) ≤ g :=
    (zpow_le_one_div_two_pow (by norm_num)).trans (ht.le.trans h.tolerance_le)
  refine ⟨hy, h.pos, ?_, abs_newton_sub_mean_le hg' (h1.trans h.le_quotient)⟩
  refine denotes_improve hx hy ha.le hg (h.le.trans ?_) (h.quotient_le.trans ?_)
  · exact two_pow_le_zpow (by norm_num)
  · exact two_pow_le_zpow (by norm_num)

theorem isGuess_first : ∃ g, IsGuess a (2 ^ 40 + a / 2 ^ 35) (step x (start x)) g := by
  have ha : 0 < a := tolerance_pos.trans_le hl
  obtain ⟨g, hy, h⟩ := exists_isStart hx hl
  have hs := h.steps hx hl hy
  obtain ⟨hlo, hhi⟩ := excess_newton_bounds ha h.pos hs.rounding
  have he := h.excess_le
  have hp : 0 ≤ a / 2 ^ 35 := by positivity
  refine ⟨_, hs.next, hs.newton_pos ha, hlo, hhi.trans ?_⟩
  norm_num at he hp ⊢
  linarith

omit hl in
theorem first_excess_le : 2 ^ 40 + a / 2 ^ 35 ≤ 2 ^ 990 := by
  have ha : a ≤ 2 ^ 1024 := (le_abs_self a).trans hx.lt.le
  have h1 : (2 : ℚ) ^ 40 ≤ 2 ^ 989 := pow_le_pow_right₀ (by norm_num) (by norm_num)
  have h2 : a / 2 ^ 35 ≤ 2 ^ 989 := by
    rw [div_le_iff₀ (by norm_num)]
    exact ha.trans_eq (pow_add 2 989 35)
  calc 2 ^ 40 + a / 2 ^ 35 ≤ 2 ^ 989 + 2 ^ 989 := add_le_add h1 h2
    _ = 2 ^ 990 := by rw [← mul_two, ← pow_succ]

theorem isGuess_run (k : ℕ) : ∃ g, IsGuess a ((2 ^ 40 + a / 2 ^ 35) * (251 / 1000) ^ k + 1 / 2 ^ 48)
    ((step x)^[k + 1] (start x)) g := by
  have ha : 0 < a := tolerance_pos.trans_le hl
  obtain ⟨g, h⟩ := isGuess_first hx hl
  exact h.iterate hx hl (by positivity) (first_excess_le hx) k

/-- Every guess of the loop is improved by a step, and no smaller than the tolerance when it is
divided by. -/
theorem exists_steps (i : ℕ) :
    ∃ g, Steps x ((step x)^[i] (start x)) a g ∧ tolerance ≤ g := by
  have ha : 0 < a := tolerance_pos.trans_le hl
  cases i with
  | zero =>
    obtain ⟨g, hy, h⟩ := exists_isStart hx hl
    exact ⟨g, h.steps hx hl hy, h.tolerance_le⟩
  | succ i =>
    obtain ⟨g, h⟩ := isGuess_run hx hl i
    have hb := excess_bound_le (by positivity) (first_excess_le hx) i
    have hg := (h.range hx hl hb).1
    have ht := tolerance_lt
    refine ⟨g, h.steps hx hl hb, ?_⟩
    norm_num at ht hg
    linarith

end

theorem abs_lt_tolerance_of_nearest {q : ℚ} (h : |nearest q| < tolerance) : |q| < tolerance := by
  by_contra hle
  rw [abs_nearest] at h
  exact absurd h (not_lt.mpr (le_nearest denotes_epsilon.representable (not_lt.mp hle)))

theorem abs_sub_lt_of_isNegligible {z : Float} {p q : ℚ} (hy : Denotes y p) (hz : Denotes z q)
    (h : isNegligible (y - z) = true) : |p - q| < tolerance := by
  have hf := isFinite_of_isNegligible h
  have hd : Denotes (y - z) (nearest (p - q)) := ⟨hf, (hy.rounds_sub hz).value_eq hf⟩
  exact abs_lt_tolerance_of_nearest ((isNegligible_iff hd).mp h)

theorem sqrt_one (hx : Denotes x 1) : sqrt x = 1 := by
  have h0 : ¬ x ≤ 0 := by
    rw [hx.le_iff denotes_zero]
    norm_num
  rw [sqrt, of, if_neg h0, if_pos ((hx.beq_iff denotes_one).mpr rfl)]

theorem sqrt_eq_iterate (hx : Denotes x a) (hl : tolerance ≤ a) (h1 : a ≠ 1) :
    sqrt x = (iterate x (99 + 1) (start x)).value := by
  have h0 : ¬ x ≤ 0 := by
    rw [hx.le_iff denotes_zero, not_le]
    exact tolerance_pos.trans_le hl
  have h1 : ¬ (x == 1) = true := by
    rwa [hx.beq_iff denotes_one]
  have he : ¬ x < epsilon := by
    rwa [hx.lt_iff denotes_epsilon, not_lt]
  rw [sqrt, of, if_neg h0, if_neg h1, if_neg he]
  rfl

/-- The square root is a step from a guess that is within the tolerance of the step, or the
hundredth guess. -/
theorem sqrt_cases (hx : Denotes x a) (hl : tolerance ≤ a) (h1 : a ≠ 1) :
    (∃ y g, Steps x y a g ∧ sqrt x = step x y ∧ |newton a g - g| < tolerance) ∨
      sqrt x = (step x)^[100] (start x) := by
  obtain ⟨i, hi, hv, hn⟩ := iterate_eq x 99 (start x)
  rw [← sqrt_eq_iterate hx hl h1] at hv
  rcases hi.lt_or_eq with hlt | rfl
  · left
    rw [Function.iterate_succ_apply'] at hv hn
    obtain ⟨g, hs, -⟩ := exists_steps hx hl i
    exact ⟨_, g, hs, hv, abs_sub_lt_of_isNegligible hs.next hs.denotes (hn hlt)⟩
  · exact .inr hv

theorem settled_of_excess (ha : 0 < a) (hg : 0 < g) (hlo : -(1 / 2 ^ 50) ≤ excess a g)
    (hhi : excess a g ≤ 1 / 2 ^ 47) : Settled a g := by
  have hsq := sq_eq (g := g) ha
  have hq : a / g = g / (1 + excess a g) := by
    rw [div_eq_div_iff hg.ne' (by norm_num at hlo; linarith), ← sq, hsq]
  generalize excess a g = e at *
  have he : 0 < 1 + e := by norm_num at hlo; linarith
  have hv : g - g / (1 + e) = g * (e / (1 + e)) := by field_simp; ring
  refine ⟨hg, ?_⟩
  rw [hq, hv, abs_mul, abs_of_pos hg]
  have hle : |e / (1 + e)| ≤ 1 / 2 ^ 46 := by
    rw [abs_div, abs_of_pos he, div_le_iff₀ he, abs_le]
    norm_num at hlo hhi ⊢
    constructor <;> linarith
  calc g * |e / (1 + e)| ≤ g * (1 / 2 ^ 46) := by gcongr
    _ ≤ 1 / 2 ^ 32 + g / 2 ^ 46 := by norm_num; linarith

theorem settled_of_near (hg : 0 < g)
    (hr : |newton a g - mean a g| ≤ mean a g * (9 / 2 ^ 55))
    (h : |newton a g - g| < tolerance) : Settled a g := by
  have hm : |mean a g - g| = |g - a / g| / 2 := by
    rw [abs_sub_comm g, ← abs_two (α := ℚ), ← abs_div]
    congr 1
    unfold mean
    ring
  have htri : |mean a g - g| ≤ |newton a g - mean a g| + |newton a g - g| := by
    rw [abs_sub_comm (newton a g) (mean a g)]
    exact abs_sub_le _ _ _
  have hmg : mean a g - g ≤ |mean a g - g| := le_abs_self _
  unfold tolerance at h
  refine ⟨hg, ?_⟩
  norm_num at hr h ⊢
  linarith

/-- In the range of exact integers the square root is one step from a settled guess. -/
theorem sqrt_spec (hx : Denotes x a) (h2 : 2 ≤ a) (hu : a ≤ 2 ^ 53) :
    ∃ g, Representable g ∧ Settled a g ∧ Denotes (sqrt x) (newton a g) := by
  have ha : 0 < a := by linarith
  have ht := tolerance_lt
  have hl : tolerance ≤ a := by norm_num at ht; linarith
  obtain ⟨y, g, hs, heq, hn⟩ | heq := sqrt_cases hx hl (by linarith) <;> rw [heq]
  · exact ⟨g, hs.denotes.representable, settled_of_near hs.pos hs.rounding hn, hs.next⟩
  · obtain ⟨g, h⟩ := isGuess_run hx hl 98
    rw [Function.iterate_succ_apply']
    have hb : (2 ^ 40 + a / 2 ^ 35) * (251 / 1000) ^ 98 + 1 / 2 ^ 48 ≤ (1 / 2 ^ 47 : ℚ) := by
      norm_num at hu ⊢
      linarith
    refine ⟨g, h.denotes.representable, ?_, (h.steps hx hl (hb.trans ?_)).next⟩
    · -- no step is left, and the excess has become small enough by itself
      exact settled_of_excess ha h.pos h.le_excess (h.excess_le.trans hb)
    · exact le_trans (by norm_num) (one_le_pow₀ (by norm_num))

end SquareRoot

end PolyEq
