import PolyEq.Proofs.Equation.Accumulation
import PolyEq.Proofs.Equation.Shown

/-! # Reduction

Reduction drops the terms that the reduced form leaves out, and nothing else. So it does not change
the reduced form, and a second reduction does not change the equation. The terms that are left have
an infinite coefficient or one that reaches the tolerance, and the degree is the greatest of their
exponents.
-/

namespace PolyEq

open Binary64

namespace Term

variable {t : Term} {terms : List Term}

/-- The coefficient is an infinity, or its magnitude is at least the tolerance. -/
def ReachesTolerance (t : Term) : Prop :=
  t.coefficient.isInf = true ∨
    t.coefficient.isFinite = true ∧ tolerance ≤ |value t.coefficient|

/-- The terms that reduction keeps. A NaN passes no comparison, so it is not among them. -/
theorem isSignificant_iff_reachesTolerance : t.isSignificant = true ↔ t.ReachesTolerance := by
  rcases kinds t.coefficient with hfinite | hinf | hnan
  · have hnot : ¬ t.coefficient.isInf = true := by
      intro h
      rw [not_isFinite_of_isInf h] at hfinite
      cases hfinite
    rw [isSignificant_iff (denotes_value hfinite), ReachesTolerance, or_iff_right hnot,
      and_iff_right hfinite]
  · obtain ⟨s, hs⟩ := hinf
    have hle : t.isSignificant = true := decide_eq_true (epsilon_le_abs_of_infinity hs).1
    exact iff_of_true hle (.inl (isInf_iff.mpr ⟨s, hs⟩))
  · have hle : ¬ t.isSignificant = true := by
      rw [isSignificant, decide_eq_true_iff]
      exact (not_epsilon_le_abs_of_nan hnan).1
    apply iff_of_false hle
    rintro (h | ⟨h, -⟩)
    · obtain ⟨s, hs⟩ := isInf_iff.mp h
      rw [hnan] at hs
      cases hs
    · change t.coefficient.toModel.unpack.isFinite = true at h
      rw [hnan] at h
      cases h

theorem Ascending.isGreatest_lastExponent (h : Ascending terms) (hne : terms ≠ []) :
    IsGreatest {n | ∃ t ∈ terms, t.exponent = n} (lastExponent terms) := by
  constructor
  · exact exists_mem_lastExponent hne
  · rintro n ⟨t, ht, rfl⟩
    exact h.le_lastExponent ht

end Term

namespace Equation

theorem form_reduce (e : Equation) : e.reduce.form = e.form := by
  rw [form, form, formText_eq, formText_eq, shown_reduce]

theorem degree_reduce_reduce (e : Equation) : e.reduce.reduce.degree = e.reduce.degree := by
  rw [degree_reduce, degree_reduce, shown_reduce]

theorem reduce_reduce (e : Equation) : e.reduce.reduce = e.reduce :=
  eq_of_terms_eq (terms_reduce_reduce e) (degree_reduce_reduce e)

theorem mem_reduce_iff (e : Equation) (t : Term) :
    t ∈ e.reduce.terms ↔ t ∈ e.terms ∧ t.ReachesTolerance := by
  rw [← Term.isSignificant_iff_reachesTolerance]
  exact List.mem_filter

theorem isGreatest_degree_reduce (e : Equation) (h : e.reduce.terms ≠ []) :
    IsGreatest {n | ∃ t ∈ e.reduce.terms, t.exponent = n} e.reduce.degree :=
  e.reduce.ascending.isGreatest_lastExponent h

/-- Whatever led to an equation, reduction keeps the reduced form, a second reduction changes
nothing, and what is left are the terms that reach the tolerance, as they were. The degree is then
the greatest exponent that is left, and zero if there is none. -/
theorem reduce_settles (e : Equation) :
    e.reduce.form = e.form ∧ e.reduce.reduce = e.reduce ∧
    (∀ t, t ∈ e.reduce.terms ↔ t ∈ e.terms ∧ t.ReachesTolerance) ∧
    (e.reduce.terms ≠ [] →
      IsGreatest {n | ∃ t ∈ e.reduce.terms, t.exponent = n} e.reduce.degree) ∧
    (e.reduce.terms = [] → e.reduce.degree = 0) := by
  refine ⟨form_reduce e, reduce_reduce e, mem_reduce_iff e, isGreatest_degree_reduce e, ?_⟩
  intro h
  change Term.lastExponent e.reduce.terms = 0
  rw [h]
  rfl

end Equation

end PolyEq
