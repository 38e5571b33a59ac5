import PolyEq.Solution.Solving
import PolyEq.Proofs.Fraction
import PolyEq.Proofs.SquareRoot.Integers

/-! # The floats of a solution

The floats of a solution are the same with and without an exact form. A quadratic equation is
solved as one if they are finite.
-/

namespace PolyEq

open Binary64

theorem eq_of_le_two {n : UInt64} (h : n ≤ 2) : n = 0 ∨ n = 1 ∨ n = 2 := by
  have hn : n.toNat ≤ 2 := UInt64.le_iff_toNat_le.mp h
  simp only [← UInt64.toNat_inj, UInt64.reduceToNat]
  omega

namespace Solution

variable {e : Equation} {a b c d x y : Float} {p q : ℚ} {n m : ℤ}

@[simp] theorem value_ofRatio (x y : Float) : (Root.ofRatio x y).value = x / y := by
  unfold Root.ofRatio
  dsimp only
  split <;> rfl

@[simp] theorem values_ofPositive (a b d : Float) : (Roots.ofPositive a b d).values =
    [sqrt d, (-b + sqrt d) / (2 * a), (-b - sqrt d) / (2 * a)] := by
  unfold Roots.ofPositive
  dsimp only
  split <;> rfl

@[simp] theorem values_ofNegative (a b c d : Float) : (Roots.ofNegative a b c d).values =
    [-b / (2 * a), (sqrt d.abs / (2 * a)).abs] := rfl

theorem ofRatio_cases (x y : Float) :
    Root.ofRatio x y = .decimal (x / y) ∨
      ∃ n m q, toInteger? x = some n ∧ toInteger? y = some m ∧
        (Fraction.reduce n m).toOption = some q ∧ Root.ofRatio x y = .exact q (x / y) := by
  unfold Root.ofRatio
  dsimp only
  cases h : exactRatio? x y with
  | none => exact .inl rfl
  | some q =>
    simp only [exactRatio?, Option.bind_eq_bind, Option.bind_eq_some_iff] at h
    obtain ⟨n, hn, m, hm, hq⟩ := h
    exact .inr ⟨n, m, q, hn, hm, hq, rfl⟩

theorem ofPositive_cases (a b d : Float) :
    Roots.ofPositive a b d =
        .real (sqrt d) (.decimal ((-b + sqrt d) / (2 * a)) ((-b - sqrt d) / (2 * a))) ∨
      ∃ i j k p q, toInteger? a = some i ∧ toInteger? b = some j ∧ toInteger? (sqrt d) = some k ∧
        exactPair? i j k = some (p, q) ∧ Roots.ofPositive a b d =
          .real (sqrt d) (.exact p q ((-b + sqrt d) / (2 * a)) ((-b - sqrt d) / (2 * a))) := by
  unfold Roots.ofPositive
  dsimp only
  split
  · next p q hpq =>
    simp only [Option.bind_eq_bind, Option.bind_eq_some_iff] at hpq
    obtain ⟨i, hi, j, hj, k, hk, hpair⟩ := hpq
    exact .inr ⟨i, j, k, p, q, hi, hj, hk, hpair, rfl⟩
  · exact .inl rfl

theorem exists_of_exactPair? {i j k : ℤ} (h : exactPair? i j k = some (p, q)) :
    (Fraction.reduce (-j + k) (2 * i)).toOption = some p ∧
      (Fraction.reduce (-j - k) (2 * i)).toOption = some q := by
  simp only [exactPair?, Option.bind_eq_bind, Option.bind_eq_some_iff] at h
  obtain ⟨p', hp, q', hq, heq⟩ := h
  cases heq
  exact ⟨hp, hq⟩

theorem exactConjugates?_cases {i j k : ℤ} {form : Conjugates}
    (h : exactConjugates? i j k = some form) :
    ∃ re, (Fraction.reduce (-j) (2 * i)).toOption = some re ∧
      (form = .radical re k (2 * i).natAbs ∨
        ∃ root im, toInteger? (sqrt (Rounding.ofInteger k)) = some root ∧
          (Fraction.reduce root (2 * i)).toOption = some im ∧ form = .rational re im.abs) := by
  simp only [exactConjugates?, Option.bind_eq_bind, Option.bind_eq_some_iff] at h
  obtain ⟨re, hre, h⟩ := h
  refine ⟨re, hre, ?_⟩
  split at h
  · next root hroot =>
    obtain ⟨im, him, heq⟩ := Option.bind_eq_some_iff.mp h
    cases heq
    exact .inr ⟨root, im, hroot, him, rfl⟩
  · cases h
    exact .inl rfl

theorem exactRatio?_eq_some (hx : Denotes x n) (hy : Denotes y m) (hn : |n| ≤ 2 ^ 53)
    (hm : |m| ≤ 2 ^ 53) (h0 : m ≠ 0) : exactRatio? x y = some ((n : ℚ) / m) := by
  rw [exactRatio?, toInteger?_of_denotes hx hn, toInteger?_of_denotes hy hm]
  change (Fraction.reduce n m).toOption = _
  rw [Fraction.reduce_eq_ok (by omega) (by omega) h0]
  rfl

theorem exactPair?_eq_some {i j r : ℤ} (hi : |i| ≤ 2 ^ 60) (hj : |j| ≤ 2 ^ 60) (hr : |r| ≤ 2 ^ 60)
    (h0 : i ≠ 0) :
    exactPair? i j r = some ((-j + r : ℚ) / (2 * i), (-j - r : ℚ) / (2 * i)) := by
  simp only [abs_le] at hj hr
  have h₁ : Fraction.reduce (-j + r) (2 * i) = .ok ((-j + r : ℚ) / (2 * i)) := by
    rw [Fraction.reduce_two_mul (by rw [abs_lt]; omega) (by omega) h0]
    push_cast
    rfl
  have h₂ : Fraction.reduce (-j - r) (2 * i) = .ok ((-j - r : ℚ) / (2 * i)) := by
    rw [Fraction.reduce_two_mul (by rw [abs_lt]; omega) (by omega) h0]
    push_cast
    rfl
  unfold exactPair?
  simp only [h₁, h₂]
  rfl

theorem ofRatio_eq_exact (hx : Denotes x n) (hy : Denotes y m) (hn : |n| ≤ 2 ^ 53)
    (hm : |m| ≤ 2 ^ 53) (h0 : m ≠ 0) : Root.ofRatio x y = .exact ((n : ℚ) / m) (x / y) := by
  unfold Root.ofRatio
  rw [exactRatio?_eq_some hx hy hn hm h0]

theorem isFinite_div (hx : Denotes x p) (hy : Denotes y q) (hp : |p| ≤ 2 ^ 60) (hq : 1 ≤ |q|) :
    (x / y).isFinite = true := by
  have h0 : q ≠ 0 := by
    rintro rfl
    norm_num at hq
  refine ((hx.rounds_div hy h0).denotes ?_).isFinite
  simp only [abs_div]
  calc |p| / |q| ≤ |p| := div_le_self (abs_nonneg p) hq
    _ ≤ 2 ^ 60 := hp
    _ ≤ 2 ^ (1023 : ℤ) := two_pow_le_zpow (by norm_num)

theorem solve_eq_ofDegree (h : (ofDegree e).isFinite = true) : e.solve = ofDegree e := by
  unfold Equation.solve
  dsimp only
  rw [if_pos h]

theorem solve_eq_outOfRange (h : (ofDegree e).isFinite = false) : e.solve = .outOfRange e.form := by
  unfold Equation.solve
  dsimp only
  rw [if_neg (Bool.eq_false_iff.mp h)]

theorem solve_eq_or (e : Equation) :
    e.solve = ofDegree e ∧ (ofDegree e).isFinite = true ∨ e.solve = .outOfRange e.form := by
  cases h : (ofDegree e).isFinite with
  | true => exact .inl ⟨solve_eq_ofDegree h, rfl⟩
  | false => exact .inr (solve_eq_outOfRange h)

/-- Every way in which an equation is solved, with all that decides for it. -/
inductive Solved (e : Equation) : Solution → Prop where
  | allReals (hd : e.degree = 0) (hc : isNegligible (e.coefficient 0) = true) :
      Solved e (.allReals e.form)
  | noSolution (hd : e.degree = 0) (hc : isNegligible (e.coefficient 0) = false) :
      Solved e (.noSolution e.form)
  | linear (hd : e.degree = 1) (hf : (Solution.linear (.ofEquation e)).isFinite = true) :
      Solved e (.linear (.ofEquation e))
  | quadratic (hd : e.degree = 2) (hf : (Solution.quadratic (.ofEquation e)).isFinite = true) :
      Solved e (.quadratic (.ofEquation e))
  | outOfRange (hd : e.degree = 1 ∨ e.degree = 2) (hf : (ofDegree e).isFinite = false) :
      Solved e (.outOfRange e.form)
  | unsolvable (hd : 2 < e.degree) : Solved e (.unsolvable e.degree)

theorem solved_solve (e : Equation) : Solved e e.solve := by
  cases hf : (ofDegree e).isFinite with
  | true =>
    rw [solve_eq_ofDegree hf]
    unfold ofDegree at hf ⊢
    split_ifs at hf ⊢ with h0 h1 h2
    · unfold ofConstant
      split_ifs with hc
      · exact .allReals h0 hc
      · exact .noSolution h0 (Bool.eq_false_iff.mpr hc)
    · exact .linear h1 hf
    · exact .quadratic h2 hf
    · refine .unsolvable (UInt64.not_le.mp fun hle => ?_)
      rcases eq_of_le_two hle with h | h | h
      · exact h0 h
      · exact h1 h
      · exact h2 h
  | false =>
    rw [solve_eq_outOfRange hf]
    refine .outOfRange ?_ hf
    unfold ofDegree ofConstant at hf
    split_ifs at hf with h0 hc h1 h2
    · cases hf
    · cases hf
    · exact .inl h1
    · exact .inr h2
    · cases hf

theorem solve_eq_quadratic (h : e.degree = 2)
    (hf : (Solution.quadratic (.ofEquation e)).isFinite = true) :
    e.solve = .quadratic (.ofEquation e) := by
  have hd : ofDegree e = .quadratic (.ofEquation e) := by
    simp only [ofDegree, h]
    rfl
  rw [← hd] at hf ⊢
  exact solve_eq_ofDegree hf

end Solution

end PolyEq
