import PolyEq.Report
import PolyEq.Proofs.Equation.Coefficients
import PolyEq.Proofs.Equation.Shown
import PolyEq.Proofs.Solution.Values

/-! # Reports are consistent

What a report says can be checked against its reduced form. This text determines which terms it
shows, and these terms determine the degree, the kind of the solution and its coefficients.
-/

namespace PolyEq

open Binary64

variable {e e' : Equation} {t : Term} {r : Report} {text : String}

theorem Term.not_isNegligible (h : t.isSignificant = true) :
    isNegligible t.coefficient = false := by
  rw [isSignificant, decide_eq_true_iff] at h
  cases hn : isNegligible t.coefficient with
  | false => rfl
  | true =>
    have hnan := isNaN_of_isFinite (isFinite_of_isNegligible hn)
    exact hn.symm.trans ((isNegligible_eq_false_iff hnan).mpr h)

namespace Equation

theorem coefficient_congr (h : e.terms = e'.terms) (n : UInt64) :
    e.coefficient n = e'.coefficient n := by
  unfold coefficient
  rw [h]

theorem terms_reduce_eq_nil_iff : e.reduce.terms = [] ↔
    e.reduce.degree = 0 ∧ isNegligible (e.reduce.coefficient 0) = true := by
  constructor
  · intro h
    have hzero : isNegligible 0 = true := by decide +kernel
    have hcoefficient : e.reduce.coefficient 0 = 0 := by simp [coefficient, h]
    exact ⟨congrArg Term.lastExponent h, by rw [hcoefficient, hzero]⟩
  · rintro ⟨hd, hc⟩
    refine List.eq_nil_iff_forall_not_mem.mpr fun t ht => ?_
    have hle : t.exponent ≤ e.reduce.degree := e.reduce.ascending.le_lastExponent ht
    rw [hd, UInt64.le_zero_iff] at hle
    rw [← hle, coefficient_of_mem ht, Term.not_isNegligible (List.mem_filter.mp ht).2] at hc
    cases hc

theorem form_reduce_eq_zero_iff : e.reduce.form = "0 = 0" ↔
    e.reduce.degree = 0 ∧ isNegligible (e.reduce.coefficient 0) = true := by
  rw [form_eq_zero_iff, terms_reduce_reduce, terms_reduce_eq_nil_iff]

end Equation

structure Shows (form : String) (e : Equation) : Prop where
  isSignificant : ∀ t ∈ e.terms, t.isSignificant = true
  form_eq : e.form = form

theorem shows_reduce (e : Equation) : Shows e.reduce.form e.reduce :=
  ⟨fun _ ht => (List.mem_filter.mp ht).2, rfl⟩

theorem Shows.terms_eq (h : Shows e.reduce.form e') : e'.terms = e.reduce.terms := by
  have hall : e'.reduce.terms = e'.terms := List.filter_eq_self.mpr h.isSignificant
  rw [← hall, Equation.terms_reduce_of_form_eq h.form_eq, Equation.terms_reduce_reduce]

def Solution.equation? : Solution → Option String
  | unsolvable _ => none
  | allReals equation | noSolution equation | outOfRange equation => some equation
  | linear s => some s.equation
  | quadratic s => some s.equation

namespace Report

theorem ofText_eq_ok_iff : ofText text = .ok r ↔ ∃ e, Equation.read text = .ok e ∧
    r = ⟨e.reduce.form, e.reduce.degree, e.reduce.solve⟩ := by
  simp only [ofText, bind_eq_ok, pure_eq_ok, @eq_comm _ _ r]

theorem ofText_eq (he : Equation.read text = .ok e) :
    ofText text = .ok ⟨e.reduce.form, e.reduce.degree, e.reduce.solve⟩ :=
  ofText_eq_ok_iff.mpr ⟨e, he, rfl⟩

/-- All that a report says agrees with the equation that its reduced form shows. -/
structure Consistent (r : Report) (shown : Equation) : Prop where
  degree : r.degree = Term.lastExponent shown.terms
  unsolvable_iff : ∀ d, r.solution = .unsolvable d ↔ 2 < r.degree ∧ d = r.degree
  allReals_iff : (∃ t, r.solution = .allReals t) ↔ r.reducedForm = "0 = 0"
  noSolution_iff : (∃ t, r.solution = .noSolution t) ↔ r.degree = 0 ∧ r.reducedForm ≠ "0 = 0"
  first_degree : r.degree = 1 →
    (∃ s, r.solution = .linear s) ∨ ∃ t, r.solution = .outOfRange t
  second_degree : r.degree = 2 →
    (∃ s, r.solution = .quadratic s) ∨ ∃ t, r.solution = .outOfRange t
  equation : r.solution.equation? = if 2 < r.degree then none else some r.reducedForm
  linear : ∀ s, r.solution = .linear s → s.a = shown.coefficient 1 ∧ s.b = shown.coefficient 0
  quadratic : ∀ s, r.solution = .quadratic s →
    s.a = shown.coefficient 2 ∧ s.b = shown.coefficient 1 ∧ s.c = shown.coefficient 0

theorem consistent_reduce (e : Equation) :
    Consistent ⟨e.reduce.form, e.reduce.degree, e.reduce.solve⟩ e.reduce := by
  have hform := Equation.form_reduce_eq_zero_iff (e := e)
  have hlast : Term.lastExponent e.reduce.terms = e.reduce.degree := rfl
  have hsolved := Solution.solved_solve e.reduce
  generalize e.reduce.solve = solution at hsolved ⊢
  cases hsolved with
  | allReals hd hc =>
    have hzero := hform.mpr ⟨hd, hc⟩
    constructor <;> simp [hlast, hd, hzero, Solution.equation?]
  | noSolution hd hc =>
    have hne : e.reduce.form ≠ "0 = 0" := fun h => by simp [hform.mp h] at hc
    constructor <;> simp [hlast, hd, hne, Solution.equation?]
  | linear hd hf =>
    have hne : e.reduce.form ≠ "0 = 0" := fun h => by simp [hform.mp h] at hd
    constructor <;> simp [hlast, hd, hne, Solution.equation?, Solution.Linear.ofEquation]
  | quadratic hd hf =>
    have hne : e.reduce.form ≠ "0 = 0" := fun h => by simp [hform.mp h] at hd
    constructor <;> simp [hlast, hd, hne, Solution.equation?, Solution.Quadratic.ofEquation]
  | outOfRange hd hf =>
    have hne : e.reduce.form ≠ "0 = 0" := fun h => by simp [hform.mp h] at hd
    rcases hd with hd | hd
    · constructor <;> simp [hlast, hd, hne, Solution.equation?]
    · constructor <;> simp [hlast, hd, hne, Solution.equation?]
  | unsolvable hd =>
    have hne : e.reduce.form ≠ "0 = 0" := fun h => by simp [hform.mp h] at hd
    have hle {n : UInt64} (hn : n ≤ 2) : e.reduce.degree ≠ n := fun h => by
      rw [h] at hd
      exact UInt64.not_lt.mpr hn hd
    have h0 : e.reduce.degree ≠ 0 := hle (by decide)
    have h1 : e.reduce.degree ≠ 1 := hle (by decide)
    have h2 : e.reduce.degree ≠ 2 := hle (by decide)
    constructor <;> simp [hlast, hd, hne, h0, h1, h2, eq_comm, Solution.equation?]

theorem Consistent.congr (h : r.Consistent e) (hterms : e.terms = e'.terms) :
    r.Consistent e' where
  degree := by rw [h.degree, hterms]
  unsolvable_iff := h.unsolvable_iff
  allReals_iff := h.allReals_iff
  noSolution_iff := h.noSolution_iff
  first_degree := h.first_degree
  second_degree := h.second_degree
  equation := h.equation
  linear := by simpa only [Equation.coefficient_congr hterms] using h.linear
  quadratic := by simpa only [Equation.coefficient_congr hterms] using h.quadratic

/-- The reduced form of a report shows an equation, and the report is consistent with whatever
equation it shows. -/
theorem consistent_of_ofText (h : ofText text = .ok r) :
    (∃ e, Shows r.reducedForm e) ∧ ∀ e, Shows r.reducedForm e → r.Consistent e := by
  obtain ⟨e, -, rfl⟩ := ofText_eq_ok_iff.mp h
  refine ⟨⟨e.reduce, shows_reduce e⟩, fun e' hshows => ?_⟩
  exact (consistent_reduce e).congr hshows.terms_eq.symm

/-- The cubic terms cancel, and what is left shows the degree and the coefficients. -/
theorem consistent_cancelled_cubic : ∃ text r e, text = "X^3 + 2*X^2 = X^3 + 8" ∧
    ofText text = .ok r ∧ r.reducedForm = "-8 + 2 * X^2 = 0" ∧
    e = (Equation.empty.add ⟨-8, 0⟩ .left).add ⟨2, 2⟩ .left ∧ Shows r.reducedForm e ∧
    r.Consistent e ∧ r.degree = 2 := by
  have hany : (ofText "X^3 + 2*X^2 = X^3 + 8").toOption.any
      (fun r => r.reducedForm == "-8 + 2 * X^2 = 0") = true := by decide +kernel
  obtain ⟨r, hr, h⟩ := exists_ok_of_any hany
  rw [beq_iff_eq] at h
  have hshows : Shows r.reducedForm ((Equation.empty.add ⟨-8, 0⟩ .left).add ⟨2, 2⟩ .left) := by
    rw [h]
    exact ⟨by decide +kernel, by decide +kernel⟩
  have hconsistent := (consistent_of_ofText hr).2 _ hshows
  exact ⟨_, r, _, rfl, hr, h, rfl, hshows, hconsistent, hconsistent.degree⟩

end Report

end PolyEq
