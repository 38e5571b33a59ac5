import PolyEq.Equation.Reading
import PolyEq.Proofs.Decimal.RoundTrip
import PolyEq.Proofs.Tolerance

/-! # Terms of an equation

Ascending terms are added one after the other, and a zero from the right side leaves the terms
that reduction keeps as they are.
-/

namespace PolyEq

open Binary64

variable {terms : List Term}

namespace Term

variable {t : Term}

theorem insert_eq_append (h : ∀ s ∈ terms, s.exponent < t.exponent) :
    Term.insert t terms = terms ++ [t] := by
  induction terms with
  | nil => rfl
  | cons s terms ih =>
    have hs : s.exponent < t.exponent := h s (by simp)
    have ih := ih fun u hu => h u (by simp [hu])
    simp only [Term.insert, if_neg (UInt64.lt_asymm hs), if_pos hs, ih]
    rfl

theorem isSignificant_iff {q : ℚ} (h : Denotes t.coefficient q) :
    t.isSignificant = true ↔ tolerance ≤ |q| := by
  simp only [isSignificant, decide_eq_true_iff]
  exact denotes_epsilon.le_iff h.abs

theorem value_ne_zero (h : t.coefficient.isFinite = true) (hs : t.isSignificant = true) :
    value t.coefficient ≠ 0 := by
  intro h0
  simp only [isSignificant_iff (denotes_value h), h0, abs_zero] at hs
  exact absurd tolerance_pos hs.not_gt

theorem not_isSignificant (h : Denotes t.coefficient 0) : t.isSignificant = false := by
  by_contra hs
  exact value_ne_zero h.isFinite (by simpa using hs) h.value_eq

/-- The negated zero is absorbed by a constant term, and dropped by reduction otherwise. -/
theorem filter_insert_zero (h : ∀ t ∈ terms, Display.Legible t.coefficient) :
    (Term.insert ⟨-0, 0⟩ terms).filter isSignificant = terms.filter isSignificant := by
  have hz : isSignificant ⟨-0, 0⟩ = false := not_isSignificant ⟨by decide, value_neg_zero⟩
  cases terms with
  | nil => simp [Term.insert, hz]
  | cons s terms =>
    have hs := (h s (by simp)).add_neg_zero
    simp only [Term.insert, if_neg UInt64.not_lt_zero]
    split_ifs
    · simp [hz]
    · simp only [hs]

end Term

namespace Equation

variable {e : Equation}

theorem terms_addAll (later : List Term) (h : Term.Ascending (e.terms ++ later)) :
    (e.addAll later .left).terms = e.terms ++ later := by
  induction later generalizing e with
  | nil => simp [addAll]
  | cons t later ih =>
    have ht : (e.add t .left).terms = e.terms ++ [t] := by
      refine Term.insert_eq_append fun s hs => ?_
      exact (List.pairwise_append.mp h).2.2 s hs t (by simp)
    have ha : Term.Ascending ((e.add t .left).terms ++ later) := by
      rwa [ht, List.append_assoc]
    have hi := ih ha
    simp only [ht, List.append_assoc] at hi
    exact hi

theorem terms_reduce_ofSides_zero
    (h : ∀ t ∈ (empty.addAll terms .left).terms, Display.Legible t.coefficient) :
    (ofSides terms [⟨0, 0⟩]).reduce.terms =
      (empty.addAll terms .left).terms.filter Term.isSignificant :=
  Term.filter_insert_zero h

theorem terms_reduce_ofSides (h : ∀ t ∈ terms, Display.Legible t.coefficient)
    (ha : Term.Ascending terms) :
    (ofSides terms [⟨0, 0⟩]).reduce.terms = terms.filter Term.isSignificant := by
  have ht : (empty.addAll terms .left).terms = terms := terms_addAll (e := empty) terms ha
  rw [← ht] at h
  rw [terms_reduce_ofSides_zero h, ht]

end Equation

end PolyEq
