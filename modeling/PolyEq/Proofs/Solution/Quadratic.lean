import PolyEq.Proofs.Solution.Values

/-! # Quadratic equations with small integer coefficients

While `b ^ 2 + 4 * |a * c|` is in the range of exact integers, the discriminant is computed
without rounding. Its square root decides the form of the roots.
-/

namespace PolyEq

open Binary64 SquareRoot

structure IsQuadratic (e : Equation) (a b c : ℤ) : Prop where
  degree : e.degree = 2
  second : Denotes (e.coefficient 2) a
  first : Denotes (e.coefficient 1) b
  constant : Denotes (e.coefficient 0) c

/-- Integer coefficients with a discriminant in the exact range. -/
structure ExactRange (a b c : ℤ) : Prop where
  ne_zero : a ≠ 0
  second : |a| ≤ 2 ^ 52
  first : |b| ≤ 2 ^ 52
  constant : |c| ≤ 2 ^ 52
  discriminant : b ^ 2 + 4 * |a * c| ≤ 2 ^ 53

namespace Solution

variable {e : Equation} {x y z d : Float} {a b c n N D : ℤ}

/-- A small power of two times an integer is exact beyond the range of exact integers. -/
theorem denotes_two_pow_mul {k : ℕ} (hy : Denotes y (2 ^ k)) (hk : k ≤ 10) (hx : Denotes x a)
    (ha : |a| ≤ 2 ^ 53) : Denotes (y * x) (2 ^ k * a) := by
  have ha' : |(a : ℚ)| ≤ 2 ^ 53 := by exact_mod_cast ha
  have hk' : (2 : ℚ) ^ k ≤ 2 ^ 10 := pow_le_pow_right₀ (by norm_num) hk
  refine (hy.rounds_mul hx).denotes_of_representable ⟨a, k, ha, by omega, ?_⟩ ?_
  · simp [zpow_natCast, mul_comm]
  · rw [abs_mul, abs_of_pos (by positivity)]
    calc 2 ^ k * |(a : ℚ)| ≤ 2 ^ 10 * 2 ^ 53 := by gcongr
      _ = 2 ^ (63 : ℤ) := by norm_num
      _ < 2 ^ (1024 : ℤ) := zpow_lt_zpow_right₀ (by norm_num) (by norm_num)

theorem denotes_two_mul (hx : Denotes x a) (ha : |a| ≤ 2 ^ 53) : Denotes (2 * x) (2 * a : ℤ) := by
  have h := denotes_two_pow_mul (k := 1) (by simpa using denotes_two) (by norm_num) hx ha
  simpa using h

theorem denotes_four_mul (hx : Denotes x a) (ha : |a| ≤ 2 ^ 53) : Denotes (4 * x) (4 * a : ℤ) := by
  have h := denotes_two_pow_mul (k := 2) (by norm_num; exact denotes_four) (by norm_num) hx ha
  norm_num at h
  push_cast
  exact h

theorem denotes_mul (hx : Denotes x a) (hy : Denotes y b) (h : |a * b| ≤ 2 ^ 53) :
    Denotes (x * y) (a * b : ℤ) := by
  have hr := hx.rounds_mul hy
  rw [← Int.cast_mul] at hr
  exact hr.denotes_of_representable (representable_intCast h) (abs_intCast_lt h)

theorem denotes_discriminant (hx : Denotes x a) (hy : Denotes y b) (hz : Denotes z c)
    (h : ExactRange a b c) :
    Denotes (y * y - 4 * x * z) (b ^ 2 - 4 * a * c : ℤ) ∧ |b ^ 2 - 4 * a * c| ≤ 2 ^ 53 := by
  have hsum := h.discriminant
  have hb := sq_nonneg b
  have hac := abs_nonneg (a * c)
  have hle := le_abs_self (a * c)
  have hge := neg_abs_le (a * c)
  have hbb : Denotes (y * y) (b * b : ℤ) := denotes_mul hy hy (by rw [abs_mul_self]; nlinarith)
  have hac4 : Denotes (4 * x * z) (4 * a * c : ℤ) :=
    denotes_mul (denotes_four_mul hx (h.second.trans (by norm_num))) hz (by
      rw [mul_assoc, abs_mul, abs_of_pos (by norm_num : (0 : ℤ) < 4)]
      linarith)
  have hd : |b ^ 2 - 4 * a * c| ≤ 2 ^ 53 := by
    simp only [abs_le]
    constructor <;> nlinarith
  refine ⟨?_, hd⟩
  have hr := hbb.rounds_sub hac4
  simp only [← Int.cast_sub, ← sq] at hr
  exact hr.denotes_of_representable (representable_intCast hd) (abs_intCast_lt hd)

theorem ofCoefficients_zero (x y z : Float) (hd : Denotes d 0) :
    Roots.ofCoefficients x y z d = .double (.ofRatio (-y) (2 * x)) := by
  have h : isNegligible d = true := by
    simp only [isNegligible_iff hd, abs_zero]
    exact tolerance_pos
  simp [Roots.ofCoefficients, if_pos h]

theorem not_isNegligible (hd : Denotes d n) (hn : n ≠ 0) : ¬ isNegligible d = true := by
  have h1 : (1 : ℚ) ≤ |(n : ℚ)| := by exact_mod_cast Int.one_le_abs hn
  have ht := tolerance_lt
  simp only [isNegligible_iff hd, not_lt]
  norm_num at ht
  linarith

theorem ofCoefficients_pos (x y z : Float) (hd : Denotes d n) (hn : 0 < n) :
    Roots.ofCoefficients x y z d = .ofPositive x y d := by
  have h : 0 < d := (denotes_zero.lt_iff hd).mpr (by exact_mod_cast hn)
  simp [Roots.ofCoefficients, if_neg (not_isNegligible hd hn.ne'), if_pos h]

theorem ofCoefficients_neg (x y z : Float) (hd : Denotes d n) (hn : n < 0) :
    Roots.ofCoefficients x y z d = .ofNegative x y z d := by
  have h : ¬ 0 < d := by
    simp only [denotes_zero.lt_iff hd, not_lt]
    exact_mod_cast hn.le
  simp [Roots.ofCoefficients, if_neg (not_isNegligible hd hn.ne), if_neg h]

theorem rat_abs_eq (q : ℚ) : q.abs = |q| := by
  rcases le_total 0 q with h | h
  · simp [abs_of_nonneg h, Rat.abs_of_nonneg h]
  · simp [abs_of_nonpos h, Rat.abs_of_nonpos h]

section
variable (hx : Denotes x a) (hy : Denotes y b) (ha : |a| ≤ 2 ^ 52) (hb : |b| ≤ 2 ^ 52) (h0 : a ≠ 0)
include hx hy ha hb h0

theorem ofRatio_double : Root.ofRatio (-y) (2 * x) =
    .exact (-(b : ℚ) / (2 * a)) (-y / (2 * x)) := by
  have h2 := denotes_two_mul hx (ha.trans (by norm_num))
  have hn := hy.neg
  rw [← Int.cast_neg] at hn
  simp only [ofRatio_eq_exact hn h2 (by rw [abs_neg]; omega)
    (by rw [abs_mul, abs_two]; omega) (by omega)]
  push_cast
  rfl

theorem ofPositive_sq (hd : Denotes d (D ^ 2 : ℤ)) (hD : 0 < D) (hu : D ^ 2 ≤ 2 ^ 53) :
    Roots.ofPositive x y d = .real (Rounding.ofInteger D)
      (.exact ((-b + D : ℚ) / (2 * a)) ((-b - D : ℚ) / (2 * a))
        ((-y + Rounding.ofInteger D) / (2 * x)) ((-y - Rounding.ofInteger D) / (2 * x))) := by
  have hs := denotes_sqrt hd (by nlinarith) hu hD (.inl rfl)
  have hD' : |D| ≤ 2 ^ 53 := by rw [abs_of_pos hD]; nlinarith
  have heq : sqrt d = Rounding.ofInteger D :=
    hs.eq (denotes_ofInteger hD') rfl (by exact_mod_cast hD.ne')
  unfold Roots.ofPositive
  dsimp only
  rw [toInteger?_of_denotes hx (ha.trans (by norm_num)),
    toInteger?_of_denotes hy (hb.trans (by norm_num)), toInteger?_of_denotes hs hD']
  simp only [Option.bind_eq_bind, Option.bind_some]
  rw [exactPair?_eq_some (by omega) (by omega) (by omega) h0, heq]

end

section
variable (ha : |a| ≤ 2 ^ 52) (hb : |b| ≤ 2 ^ 52) (h0 : a ≠ 0) (hN : 1 ≤ N) (hu : N ≤ 2 ^ 53)
include ha hb h0 hN hu

theorem exactConjugates?_of_roundsTo (hn : 0 < n) (h : RoundsTo N n) :
    exactConjugates? a b N = some (.rational (-b / (2 * a)) (n / (2 * |a|))) := by
  have hx := denotes_ofInteger (n := N) (by rw [abs_of_pos (by omega)]; exact hu)
  have hs := (toInteger?_sqrt_eq_some_iff hx hN hu).mpr ⟨hn, h⟩
  have hle := h.le.1
  have hn' : n ≤ 2 ^ 28 := by nlinarith
  unfold exactConjugates?
  rw [hs, Fraction.reduce_two_mul (by rw [abs_neg]; omega) (by omega) h0]
  change (do
    let imaginary ← (Fraction.reduce n (2 * a)).toOption
    return Conjugates.rational _ imaginary.abs) = _
  rw [Fraction.reduce_two_mul (by rw [abs_of_pos hn]; omega) (by omega) h0]
  change some (Conjugates.rational _ _) = _
  rw [rat_abs_eq, abs_div, abs_mul, abs_two, abs_of_pos (by exact_mod_cast hn)]
  push_cast
  rfl

theorem exactConjugates?_of_not_roundsTo (h : ∀ n, 0 < n → ¬ RoundsTo N n) :
    exactConjugates? a b N = some (.radical (-b / (2 * a)) N (2 * |a|)) := by
  have hx := denotes_ofInteger (n := N) (by rw [abs_of_pos (by omega)]; exact hu)
  have hs : toInteger? (sqrt (Rounding.ofInteger N)) = none := by
    simp only [Option.eq_none_iff_forall_not_mem]
    intro n hn
    obtain ⟨hn, hr⟩ := (toInteger?_sqrt_eq_some_iff hx hN hu).mp hn
    exact h n hn hr
  unfold exactConjugates?
  rw [hs, Fraction.reduce_two_mul (by rw [abs_neg]; omega) (by omega) h0]
  change some (Conjugates.radical _ _ _) = _
  simp only [Int.natCast_natAbs, abs_mul, abs_two]
  push_cast
  rfl

end

theorem ofNegative_eq (hx : Denotes x a) (hy : Denotes y b) (hz : Denotes z c)
    (hd : Denotes d n) (ha : |a| ≤ 2 ^ 53) (hb : |b| ≤ 2 ^ 53) (hc : |c| ≤ 2 ^ 53)
    (hn : |n| ≤ 2 ^ 53) :
    Roots.ofNegative x y z d = .complex (-y / (2 * x)) (sqrt d.abs / (2 * x)).abs
      (exactConjugates? a b |n|) := by
  have habs := hd.abs
  rw [← Int.cast_abs] at habs
  unfold Roots.ofNegative exactParts?
  rw [toInteger?_of_denotes hx ha, toInteger?_of_denotes hy hb, toInteger?_of_denotes hz hc,
    toInteger?_of_denotes habs (by rwa [abs_abs])]
  rfl

theorem isFinite_roots (hx : Denotes x a) (hy : Denotes y b) (ha : |a| ≤ 2 ^ 52) (hb : |b| ≤ 2 ^ 52)
    (h0 : a ≠ 0) (z : Float) (hd : Denotes d n) (hn : |n| ≤ 2 ^ 53) :
    (Roots.ofCoefficients x y z d).values.all Float.isFinite = true := by
  have h2 := denotes_two_mul hx (ha.trans (by norm_num))
  have h2' : (1 : ℚ) ≤ |((2 * a : ℤ) : ℚ)| := by exact_mod_cast Int.one_le_abs (by omega)
  have hb' : |-(b : ℚ)| ≤ 2 ^ 52 := by rw [abs_neg]; exact_mod_cast hb
  rcases lt_trichotomy n 0 with hneg | rfl | hpos
  · have habs : Denotes d.abs (-n : ℤ) := by
      have := hd.abs
      rwa [← Int.cast_abs, abs_of_neg hneg] at this
    obtain ⟨r, hr, hle⟩ := exists_denotes_sqrt habs (by omega) (by rwa [abs_of_neg hneg] at hn)
    have h₁ := isFinite_div hy.neg h2 (hb'.trans (by norm_num)) h2'
    have h₂ := isFinite_div hr h2 (hle.trans (by norm_num)) h2'
    simp only [ofCoefficients_neg x y z hd hneg, values_ofNegative]
    simp [h₁, h₂]
  · simp only [Int.cast_zero] at hd
    have h₁ := isFinite_div hy.neg h2 (hb'.trans (by norm_num)) h2'
    simp only [ofCoefficients_zero x y z hd]
    simp [Roots.values, h₁]
  · obtain ⟨r, hr, hle⟩ := exists_denotes_sqrt hd (by omega) (by rwa [abs_of_pos hpos] at hn)
    have hsmall : (2 : ℚ) ^ 60 ≤ 2 ^ (1023 : ℤ) := two_pow_le_zpow (by norm_num)
    have hp : |-(b : ℚ) + r| ≤ 2 ^ 60 := by
      have := abs_add_le (-(b : ℚ)) r
      norm_num at this hb' hle ⊢
      linarith
    have hm : |-(b : ℚ) - r| ≤ 2 ^ 60 := by
      have := abs_sub (-(b : ℚ)) r
      norm_num at this hb' hle ⊢
      linarith
    have h₁ := isFinite_div ((hy.neg.rounds_add hr).denotes (hp.trans hsmall)) h2
      (abs_nearest_le hp) h2'
    have h₂ := isFinite_div ((hy.neg.rounds_sub hr).denotes (hm.trans hsmall)) h2
      (abs_nearest_le hm) h2'
    simp only [ofCoefficients_pos x y z hd hpos, values_ofPositive]
    simp [hr.isFinite, h₁, h₂]

theorem solve_isQuadratic (h : IsQuadratic e a b c) (hr : ExactRange a b c) :
    e.solve = .quadratic (.ofEquation e) := by
  obtain ⟨hd, hle⟩ := denotes_discriminant h.second h.first h.constant hr
  have hf := isFinite_roots h.second h.first hr.second hr.first hr.ne_zero (e.coefficient 0) hd hle
  refine solve_eq_quadratic h.degree ?_
  simp only [isFinite, values, Quadratic.ofEquation, List.all_cons, h.second.isFinite,
    h.first.isFinite, h.constant.isFinite, hd.isFinite, Bool.true_and]
  exact hf

end Solution

end PolyEq
