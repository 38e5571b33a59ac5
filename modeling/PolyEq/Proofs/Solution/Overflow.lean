import PolyEq.Proofs.Report

/-! # Overflow

Each coefficient that is read is finite, but a sum of them may overflow. An infinite coefficient
puts the solution out of range at degrees one and two. At degree zero it counts as a constant
that is not zero.
-/

namespace PolyEq

open Binary64

variable {e : Equation} {t : Term} {x : Float} {n : UInt64} {text : String}

theorem isNegligible_of_isInf (h : x.isInf = true) : isNegligible x = false := by
  obtain ⟨s, h⟩ := isInf_iff.mp h
  rw [isNegligible, decide_eq_false_iff_not]
  exact (epsilon_le_abs_of_infinity h).2.2

namespace Solution

theorem solve_eq_noSolution (h : e.degree = 0) (hc : isNegligible (e.coefficient 0) = false) :
    e.solve = .noSolution e.form := by
  have hd : ofDegree e = .noSolution e.form := by
    simp [ofDegree, h, ofConstant, hc]
  rw [solve_eq_ofDegree (by rw [hd]; rfl), hd]

theorem coefficient_mem_values (h0 : e.degree ≠ 0) (hd : e.degree ≤ 2) (hn : n ≤ e.degree) :
    e.coefficient n ∈ (ofDegree e).values := by
  have hn2 := eq_of_le_two (UInt64.le_trans hn hd)
  rcases (eq_of_le_two hd).resolve_left h0 with h | h <;> rw [h] at hn
  · have hof : ofDegree e = .linear (.ofEquation e) := by simp [ofDegree, h]
    rw [hof]
    rcases hn2 with rfl | rfl | rfl
    · simp [values, Linear.ofEquation]
    · simp [values, Linear.ofEquation]
    · exact absurd hn (by decide)
  · have hof : ofDegree e = .quadratic (.ofEquation e) := by
      simp only [ofDegree, h]
      rfl
    rw [hof]
    rcases hn2 with rfl | rfl | rfl <;> simp [values, Quadratic.ofEquation]

end Solution

namespace Equation

theorem solve_of_isInf (ht : t ∈ e.reduce.terms) (hinf : t.coefficient.isInf = true)
    (hd : e.reduce.degree ≤ 2) : e.reduce.solve =
      if e.reduce.degree = 0 then .noSolution e.reduce.form else .outOfRange e.reduce.form := by
  have hle : t.exponent ≤ e.reduce.degree := e.reduce.ascending.le_lastExponent ht
  have hc : e.reduce.coefficient t.exponent = t.coefficient := coefficient_of_mem ht
  split_ifs with h0
  · rw [h0, UInt64.le_zero_iff] at hle
    rw [hle] at hc
    exact Solution.solve_eq_noSolution h0 (hc ▸ isNegligible_of_isInf hinf)
  · have hmem := Solution.coefficient_mem_values h0 hd hle
    refine Solution.solve_eq_outOfRange (List.all_eq_false.mpr ⟨_, hmem, ?_⟩)
    rw [hc, not_isFinite_of_isInf hinf]
    exact Bool.false_ne_true

end Equation

namespace Report

/-- A text with an infinite sum of coefficients and a degree up to two is out of range, except at
degree zero, where it is told to have no solution. -/
theorem ofText_of_isInf (he : Equation.read text = .ok e) (ht : t ∈ e.reduce.terms)
    (hinf : t.coefficient.isInf = true) (hd : e.reduce.degree ≤ 2) :
    ∃ r, ofText text = .ok r ∧ r.degree = e.reduce.degree ∧
      (r.solution = .outOfRange r.reducedForm ↔ r.degree ≠ 0) ∧
      (r.degree = 0 → r.solution = .noSolution r.reducedForm) := by
  refine ⟨_, ofText_eq he, rfl, ?_⟩
  dsimp only
  rw [Equation.solve_of_isInf ht hinf hd]
  split_ifs with h0 <;> simp [h0]

/-- The hypotheses on a text can be evaluated. -/
theorem exists_isInf (text : String) (d : UInt64) (h : (Equation.read text).toOption.any (fun e =>
      e.reduce.degree == d && e.reduce.terms.any fun t => t.coefficient.isInf) = true) :
    ∃ e t, Equation.read text = .ok e ∧ t ∈ e.reduce.terms ∧ t.coefficient.isInf = true ∧
      e.reduce.degree = d := by
  obtain ⟨e, he, h⟩ := exists_ok_of_any h
  simp only [Bool.and_eq_true, beq_iff_eq, List.any_eq_true] at h
  obtain ⟨hd, t, ht, hinf⟩ := h
  exact ⟨e, t, he, ht, hinf, hd⟩

theorem ofText_linear_overflow : ∃ text e t,
    text = "1e308*X + 1e308*X = 0" ∧ Equation.read text = .ok e ∧ t ∈ e.reduce.terms ∧
      t.coefficient.isInf = true ∧ e.reduce.degree ≤ 2 ∧
      ∃ r, ofText text = .ok r ∧ r.degree = 1 ∧ r.solution = .outOfRange r.reducedForm := by
  obtain ⟨e, t, he, ht, hinf, hd⟩ :=
    exists_isInf "1e308*X + 1e308*X = 0" 1 (by decide +kernel)
  have hd2 : e.reduce.degree ≤ 2 := by rw [hd]; decide
  obtain ⟨r, hr, hdeg, hout, -⟩ := ofText_of_isInf he ht hinf hd2
  rw [hd] at hdeg
  exact ⟨_, e, t, rfl, he, ht, hinf, hd2, r, hr, hdeg, hout.mpr (by rw [hdeg]; decide)⟩

/-- An equation with the same sum on both sides, solved by every number, is told to have none. -/
theorem ofText_constant_overflow : ∃ text e t,
    text = "1.7e308*X^0 + 1.7e308*X^0 = 1.7e308*X^0 + 1.7e308*X^0" ∧
      Equation.read text = .ok e ∧ t ∈ e.reduce.terms ∧ t.coefficient.isInf = true ∧
      e.reduce.degree ≤ 2 ∧
      ∃ r, ofText text = .ok r ∧ r.solution = .noSolution r.reducedForm ∧
        r.solution ≠ .outOfRange r.reducedForm := by
  obtain ⟨e, t, he, ht, hinf, hd⟩ := exists_isInf
    "1.7e308*X^0 + 1.7e308*X^0 = 1.7e308*X^0 + 1.7e308*X^0" 0 (by decide +kernel)
  have hd2 : e.reduce.degree ≤ 2 := by rw [hd]; decide
  refine ⟨_, e, t, rfl, he, ht, hinf, hd2, _, ofText_eq he, ?_⟩
  dsimp only
  rw [Equation.solve_of_isInf ht hinf hd2, if_pos hd]
  exact ⟨rfl, Solution.noConfusion⟩

end Report

end PolyEq
