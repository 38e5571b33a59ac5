import PolyEq.Proofs.Solution.ExactForm

/-! # Exact real roots

The exact root of a linear equation with integer coefficients is its root. Those of a quadratic
equation are its roots exactly if the integer that stands for the square root of the discriminant
is one: both the discriminant and its root may have been rounded.
-/

namespace PolyEq

open Binary64 SquareRoot

def IsIntegral (e : Equation) : Prop :=
  ∀ t ∈ e.terms, ∃ n : ℤ, |n| ≤ 2 ^ 53 ∧ Denotes t.coefficient n

namespace Solution

def Root.fraction? : Root → Option ℚ
  | exact v _ => some v
  | decimal _ => none

def Roots.fractions : Roots → List ℚ
  | double root => root.fraction?.toList
  | real _ (.exact p q _ _) => [p, q]
  | _ => []

/-- The integer taken for the square root of the discriminant when real roots are exact. -/
def Roots.integerRoot? : Roots → Option ℤ
  | double root => root.fraction?.map fun _ => 0
  | real r (.exact _ _ _ _) => toInteger? r
  | _ => none

variable {e : Equation} {x y z d : Float} {a b c n m : ℤ} {v : ℚ}

theorem coefficient_of_isIntegral (h : IsIntegral e) (k : UInt64) :
    ∃ n : ℤ, |n| ≤ 2 ^ 53 ∧ Denotes (e.coefficient k) n := by
  unfold Equation.coefficient
  cases hf : e.terms.find? (·.exponent == k) with
  | none => exact ⟨0, by norm_num, by simpa using denotes_zero⟩
  | some t => exact h t (List.mem_of_find?_eq_some hf)

theorem eq_of_toInteger? (hx : Denotes x n) (h : toInteger? x = some m) : m = n := by
  have ht := ((toInteger?_eq_some_iff hx).mp h).2.trans tolerance_lt
  apply eq_of_abs_sub_lt_one
  norm_num at ht
  linarith

theorem fraction?_ofRatio (hx : Denotes x n) (hy : Denotes y m)
    (h : (Root.ofRatio x y).fraction? = some v) : m ≠ 0 ∧ v = n / m := by
  obtain hroot | ⟨i, j, q, hi, hj, hr, hroot⟩ := ofRatio_cases x y <;> rw [hroot] at h <;> cases h
  rw [eq_of_toInteger? hx hi, eq_of_toInteger? hy hj] at hr
  exact Fraction.toOption_reduce hr

/-- The root formula gives roots exactly for the root of the discriminant. -/
theorem root_iff {a b c r v : ℚ} (ha : a ≠ 0) (hv : v = (-b + r) / (2 * a)) :
    a * v ^ 2 + b * v + c = 0 ↔ r ^ 2 = b ^ 2 - 4 * a * c := by
  have h : 4 * a * (a * v ^ 2 + b * v + c) = r ^ 2 - (b ^ 2 - 4 * a * c) := by
    rw [hv]
    field_simp
    ring
  rw [← sub_eq_zero (a := r ^ 2), ← h, mul_eq_zero, or_iff_right (mul_ne_zero (by norm_num) ha)]

theorem eq_of_exactPair? {i j r : ℤ} {p q : ℚ} (h : exactPair? i j r = some (p, q)) :
    i ≠ 0 ∧ p = (-j + r : ℚ) / (2 * i) ∧ q = (-j + -r : ℚ) / (2 * i) := by
  obtain ⟨hp, hq⟩ := exists_of_exactPair? h
  obtain ⟨hi, hp⟩ := Fraction.toOption_reduce hp
  obtain ⟨-, hq⟩ := Fraction.toOption_reduce hq
  refine ⟨by omega, ?_, ?_⟩
  · rw [hp]
    push_cast
    rfl
  · simp only [hq, ← sub_eq_add_neg]
    push_cast
    rfl

theorem fractions_cases (hx : Denotes x a) (hy : Denotes y b) (h2 : Denotes (2 * x) (2 * a : ℤ))
    (z d : Float) (roots : Roots) (h : roots = Roots.ofCoefficients x y z d) :
    roots.fractions = [] ∧ roots.integerRoot? = none ∨
      ∃ R : ℤ, a ≠ 0 ∧ roots.integerRoot? = some R ∧
        (-b + R : ℚ) / (2 * a) ∈ roots.fractions ∧
        ∀ v ∈ roots.fractions, v = (-b + R : ℚ) / (2 * a) ∨ v = (-b + -R : ℚ) / (2 * a) := by
  have hn := hy.neg
  rw [← Int.cast_neg] at hn
  subst h
  unfold Roots.ofCoefficients
  split_ifs with h0 hpos
  · cases hv : (Root.ofRatio (-y) (2 * x)).fraction? with
    | none => left; simp [Roots.fractions, Roots.integerRoot?, hv]
    | some v =>
      obtain ⟨ha, hq⟩ := fraction?_ofRatio hn h2 hv
      refine .inr ⟨0, by rintro rfl; simp at ha, by simp [Roots.integerRoot?, hv], ?_, ?_⟩
      · simp [Roots.fractions, hv, hq]
      · intro w hw
        simp only [Roots.fractions, hv, Option.toList_some, List.mem_singleton] at hw
        left
        simp [hw, hq]
  · obtain hroots | ⟨i, j, R, p, q, hi, hj, hR, hpair, hroots⟩ := ofPositive_cases x y d <;>
      rw [hroots]
    · exact .inl ⟨rfl, rfl⟩
    · rw [eq_of_toInteger? hx hi, eq_of_toInteger? hy hj] at hpair
      obtain ⟨ha, hp, hq⟩ := eq_of_exactPair? hpair
      refine .inr ⟨R, ha, hR, by simp [Roots.fractions, hp], ?_⟩
      intro w hw
      simpa [Roots.fractions, hp, hq] using hw
  · exact .inl ⟨rfl, rfl⟩

theorem eq_of_solve_linear {s : Linear} (h : e.solve = .linear s) : s = .ofEquation e := by
  have hs := h ▸ solved_solve e
  cases hs
  rfl

theorem eq_of_solve_quadratic {s : Quadratic} (h : e.solve = .quadratic s) :
    s = .ofEquation e := by
  have hs := h ▸ solved_solve e
  cases hs
  rfl

theorem fractions_are_roots_iff (hx : Denotes x a) (hy : Denotes y b) (hz : Denotes z c)
    (ha : |a| ≤ 2 ^ 53) (d : Float) (roots : Roots) (h : roots = Roots.ofCoefficients x y z d) :
    (∀ v ∈ roots.fractions, value x * v ^ 2 + value y * v + value z = 0) ↔
      ∀ R ∈ roots.integerRoot?, R ^ 2 = b ^ 2 - 4 * a * c := by
  simp only [hx.value_eq, hy.value_eq, hz.value_eq]
  rcases fractions_cases hx hy (denotes_two_mul hx ha) z d roots h with
    ⟨hf, hr⟩ | ⟨R, ha0, hR, hmem, hall⟩
  · simp [hf, hr]
  · have ha' : (a : ℚ) ≠ 0 := by exact_mod_cast ha0
    have hiff : ((R : ℚ) ^ 2 = b ^ 2 - 4 * a * c) ↔ R ^ 2 = b ^ 2 - 4 * a * c := by norm_cast
    rw [hR]
    simp only [Option.mem_some_iff, forall_eq']
    constructor
    · intro hv
      exact hiff.mp ((root_iff ha' rfl).mp (hv _ hmem))
    · intro hsq v hv
      rcases hall v hv with hv | hv
      · exact (root_iff ha' hv).mpr (hiff.mpr hsq)
      · exact (root_iff ha' hv).mpr (by rw [neg_sq]; exact hiff.mpr hsq)

theorem integerRoot?_ofPositive (hx : Denotes x a) (hy : Denotes y b) (ha : |a| ≤ 2 ^ 52)
    (hb : |b| ≤ 2 ^ 52) (h0 : a ≠ 0) (hd : Denotes d n) (h1 : 1 ≤ n) (hu : n ≤ 2 ^ 53) :
    (Roots.ofPositive x y d).integerRoot? = toInteger? (sqrt d) := by
  unfold Roots.ofPositive
  dsimp only
  rw [toInteger?_of_denotes hx (ha.trans (by norm_num)),
    toInteger?_of_denotes hy (hb.trans (by norm_num))]
  cases hR : toInteger? (sqrt d) with
  | none => rfl
  | some R =>
    obtain ⟨hR0, hround⟩ := (toInteger?_sqrt_eq_some_iff hd h1 hu).mp hR
    have hR' : |R| ≤ 2 ^ 60 := by
      have := hround.le.1
      simp only [abs_of_pos hR0]
      nlinarith
    simp only [Option.bind_eq_bind, Option.bind_some]
    rw [exactPair?_eq_some (by omega) (by omega) hR' h0]
    exact hR

theorem integerRoot?_iff (h : IsQuadratic e a b c) (hr : ExactRange a b c) :
    (∀ R ∈ (Quadratic.ofEquation e).roots.integerRoot?, R ^ 2 = b ^ 2 - 4 * a * c) ↔
      ∀ n, 0 < n → RoundsTo (b ^ 2 - 4 * a * c) n → b ^ 2 - 4 * a * c = n ^ 2 := by
  obtain ⟨hd, hle⟩ := denotes_discriminant h.second h.first h.constant hr
  have ha := h.second
  have hb := h.first
  simp only [Quadratic.ofEquation]
  generalize b ^ 2 - 4 * a * c = D at *
  rcases lt_trichotomy D 0 with hneg | rfl | hpos
  · simp only [ofCoefficients_neg _ _ _ hd hneg]
    constructor
    · intro _ n hn hrn
      exact hrn.eq_of_nonpos hn hneg.le
    · rintro - R hR
      cases hR
  · simp only [Int.cast_zero] at hd
    simp only [ofCoefficients_zero _ _ _ hd, ofRatio_double ha hb hr.second hr.first hr.ne_zero]
    constructor
    · intro _ n hn hrn
      exact hrn.eq_of_nonpos hn le_rfl
    · rintro - R hR
      cases hR
      rfl
  · simp only [ofCoefficients_pos _ _ _ hd hpos]
    have hu := le_of_abs_le hle
    have hint := integerRoot?_ofPositive ha hb hr.second hr.first hr.ne_zero hd hpos hu
    have hiff {n : ℤ} : n ∈ toInteger? (sqrt _) ↔ _ := toInteger?_sqrt_eq_some_iff hd hpos hu
    rw [hint]
    constructor
    · intro hall n hn hrn
      exact (hall n (hiff.mpr ⟨hn, hrn⟩)).symm
    · intro hall R hR
      obtain ⟨hR0, hround⟩ := hiff.mp hR
      exact (hall R hR0 hround).symm

theorem fractions_are_roots_of_exactRange (h : IsQuadratic e a b c) (hr : ExactRange a b c) :
    (∀ v ∈ (Quadratic.ofEquation e).roots.fractions, value (Quadratic.ofEquation e).a * v ^ 2 +
      value (Quadratic.ofEquation e).b * v + value (Quadratic.ofEquation e).c = 0) ↔
      ∀ n, 0 < n → RoundsTo (b ^ 2 - 4 * a * c) n → b ^ 2 - 4 * a * c = n ^ 2 :=
  (fractions_are_roots_iff h.second h.first h.constant (hr.second.trans (by norm_num)) _ _
    rfl).trans (integerRoot?_iff h hr)

/-- Exact roots of equations with integer coefficients. -/
theorem exact_roots_iff (h : IsIntegral e) :
    (∀ s, e.solve = .linear s → ∀ v ∈ s.root.fraction?, value s.a * v + value s.b = 0) ∧
    (∀ s, e.solve = .quadratic s →
      ((∀ v ∈ s.roots.fractions, value s.a * v ^ 2 + value s.b * v + value s.c = 0) ↔
        ∀ R ∈ s.roots.integerRoot?, (R : ℚ) ^ 2 = value s.b ^ 2 - 4 * value s.a * value s.c)) ∧
    ∀ a b c, IsQuadratic e a b c → ExactRange a b c → ∃ s, e.solve = .quadratic s ∧
      ((∀ v ∈ s.roots.fractions, value s.a * v ^ 2 + value s.b * v + value s.c = 0) ↔
        ∀ n, 0 < n → RoundsTo (b ^ 2 - 4 * a * c) n → b ^ 2 - 4 * a * c = n ^ 2) := by
  obtain ⟨a, ha, hx⟩ := coefficient_of_isIntegral h 2
  obtain ⟨b, hb, hy⟩ := coefficient_of_isIntegral h 1
  obtain ⟨c, hc, hz⟩ := coefficient_of_isIntegral h 0
  refine ⟨?_, ?_, ?_⟩
  · intro s hs v hv
    simp only [eq_of_solve_linear hs] at hv ⊢
    simp only [Linear.ofEquation] at hv ⊢
    have hn := hz.neg
    rw [← Int.cast_neg] at hn
    obtain ⟨hb0, rfl⟩ := fraction?_ofRatio hn hy hv
    have hb0' : (b : ℚ) ≠ 0 := by exact_mod_cast hb0
    simp only [hy.value_eq, hz.value_eq]
    push_cast
    field_simp
    ring
  · intro s hs
    simp only [eq_of_solve_quadratic hs]
    refine (fractions_are_roots_iff hx hy hz ha _ _ rfl).trans ?_
    simp only [Quadratic.ofEquation, hx.value_eq, hy.value_eq, hz.value_eq]
    norm_cast
  · intro a b c hq hr
    exact ⟨_, solve_isQuadratic hq hr, fractions_are_roots_of_exactRange hq hr⟩

theorem isIntegral_ofIntegers (ha : |a| ≤ 2 ^ 53) (hb : |b| ≤ 2 ^ 53) (hc : |c| ≤ 2 ^ 53) :
    IsIntegral (.ofIntegers a b c) := by
  intro t ht
  simp only [Equation.terms_ofIntegers] at ht
  have ht := List.mem_of_mem_filter ht
  simp only [List.mem_cons, List.not_mem_nil, or_false] at ht
  rcases ht with rfl | rfl | rfl
  · exact ⟨c, hc, denotes_ofInteger hc⟩
  · exact ⟨b, hb, denotes_ofInteger hb⟩
  · exact ⟨a, ha, denotes_ofInteger ha⟩

theorem exact_roots_one_neg_three_two : ∃ s,
    (Equation.ofIntegers 1 (-3) 2).solve = .quadratic s ∧
      ∀ v ∈ s.roots.fractions, value s.a * v ^ 2 + value s.b * v + value s.c = 0 := by
  have h := isIntegral_ofIntegers (a := 1) (b := -3) (c := 2) (by norm_num) (by norm_num)
    (by norm_num)
  have hq : IsQuadratic (.ofIntegers 1 (-3) 2) 1 (-3) 2 :=
    Equation.isQuadratic_ofIntegers (by norm_num) (by norm_num) (by norm_num) (by norm_num)
  obtain ⟨-, -, hrange⟩ := exact_roots_iff h
  obtain ⟨s, hs, hiff⟩ := hrange 1 (-3) 2 hq (by constructor <;> norm_num)
  refine ⟨s, hs, hiff.mpr ?_⟩
  intro n hn hrn
  rcases hrn.lt_or_eq with hlt | heq
  · have := hrn.le.1
    nlinarith
  · exact heq

/-- The discriminant of `X ^ 2 - 1125899940397056 = 0` is `67108865 ^ 2 - 1`, and `67108865 / 2`
is reported as an exact root. -/
theorem not_roots_near_square : IsIntegral (.ofIntegers 1 0 (-1125899940397056)) ∧ ∃ s,
    (Equation.ofIntegers 1 0 (-1125899940397056)).solve = .quadratic s ∧
      ¬ ∀ v ∈ s.roots.fractions, value s.a * v ^ 2 + value s.b * v + value s.c = 0 := by
  have hq : IsQuadratic (.ofIntegers 1 0 (-1125899940397056)) 1 0 (-1125899940397056) :=
    Equation.isQuadratic_ofIntegers (by norm_num) (by norm_num) (by norm_num) (by norm_num)
  have hr : ExactRange 1 0 (-1125899940397056) := by
    constructor <;> norm_num
  refine ⟨isIntegral_ofIntegers (by norm_num) (by norm_num) (by norm_num), _,
    solve_isQuadratic hq hr, ?_⟩
  intro hall
  have hsq := (fractions_are_roots_of_exactRange hq hr).mp hall 67108865 (by norm_num)
    (.inr (.inl ⟨by norm_num, by norm_num⟩))
  norm_num at hsq

end Solution

end PolyEq
