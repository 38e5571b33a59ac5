import PolyEq.Proofs.IntegerLike
import PolyEq.Proofs.Solution.ExactRoots
import PolyEq.Proofs.Solution.Residual

/-! # Well-formed solutions

The lines of a derivation take for granted what no type keeps: fractions in lowest terms, a
discriminant with the sign that the roots are told by, and a positive imaginary part. The square
root of a discriminant is too large to vanish in the division, and what reaches the tolerance does
not stand for zero.
-/

namespace PolyEq

open Binary64
open SquareRoot (exists_isRoot toInteger?_sqrt_eq_some_iff)

variable {e : Equation} {x y z u : Float} {a b c d q : ℚ} {i j k m n : ℤ}

namespace Fraction

structure IsReduced (q : ℚ) : Prop where
  den_pos : 0 < q.den
  coprime : q.num.natAbs.Coprime q.den
  fitsWord_num : fitsWord q.num = true
  fitsWord_den : fitsWord q.den = true

theorem isReduced_of_reduce (h : (reduce n m).toOption = some q) : IsReduced q := by
  unfold reduce at h
  dsimp only at h
  split_ifs at h with h0 hfit
  · cases h
  · cases h
    obtain ⟨hnum, hden⟩ := Bool.and_eq_true_iff.mp hfit
    exact ⟨Rat.den_pos _, Rat.reduced _, hnum, hden⟩
  · cases h

theorem isReduced_div (hn : |n| < 2 ^ 63) (hm : |m| < 2 ^ 63) (h0 : m ≠ 0) :
    IsReduced (n / m) := by
  apply isReduced_of_reduce (n := n) (m := m)
  rw [reduce_eq_ok hn hm h0]
  rfl

end Fraction

namespace Solution

def Root.WellFormed : Root → Prop
  | exact value _ => Fraction.IsReduced value
  | decimal _ => True

def Pair.WellFormed : Pair → Prop
  | exact first second _ _ => Fraction.IsReduced first ∧ Fraction.IsReduced second
  | decimal _ _ => True

/-- The imaginary part is positive: a fraction, or the root of a positive integer over an even
one. -/
def Conjugates.WellFormed : Conjugates → Prop
  | rational re im => Fraction.IsReduced re ∧ Fraction.IsReduced im ∧ 0 < im
  | radical re radicand denominator =>
    Fraction.IsReduced re ∧ 1 ≤ radicand ∧ Even denominator ∧ 2 ≤ denominator

def Roots.WellFormed (discriminant : Float) : Roots → Prop
  | double root => discriminant.abs < epsilon ∧ root.WellFormed
  | real sqrtDiscriminant pair => 0 < discriminant ∧ 0 < sqrtDiscriminant ∧ pair.WellFormed
  | complex _ im form? => discriminant < 0 ∧ 0 < im ∧ ∀ form ∈ form?, form.WellFormed

def WellFormed : Solution → Prop
  | linear s => (s.a < 0 ∨ 0 < s.a) ∧ s.root.WellFormed
  | quadratic s => (s.a < 0 ∨ 0 < s.a) ∧ s.roots.WellFormed s.discriminant
  | _ => True

theorem wellFormed_ofRatio (x y : Float) : (Root.ofRatio x y).WellFormed := by
  obtain hroot | ⟨n, m, q, -, -, hr, hroot⟩ := ofRatio_cases x y <;> rw [hroot]
  · trivial
  · exact Fraction.isReduced_of_reduce hr

theorem wellFormed_ofPositive (a b : Float) (hu : Denotes u d) (hd : tolerance ≤ d) :
    (Roots.ofPositive a b u).WellFormed u := by
  obtain ⟨s, hs, hr⟩ := exists_isRoot hu hd
  have hpos : 0 < u := (denotes_zero.lt_iff hu).mpr (tolerance_pos.trans_le hd)
  have hroot : 0 < sqrt u := (denotes_zero.lt_iff hs).mpr hr.pos
  obtain hroots | ⟨i, j, k, p, q, -, -, -, hpair, hroots⟩ := ofPositive_cases a b u <;>
    rw [hroots]
  · exact ⟨hpos, hroot, trivial⟩
  · obtain ⟨hp, hq⟩ := exists_of_exactPair? hpair
    exact ⟨hpos, hroot, Fraction.isReduced_of_reduce hp, Fraction.isReduced_of_reduce hq⟩

theorem wellFormed_exactConjugates? {form : Conjugates} (h : exactConjugates? i j k = some form)
    (hi : |i| ≤ 2 ^ 53) (h1 : 1 ≤ k) (hk : k ≤ 2 ^ 53) : form.WellFormed := by
  obtain ⟨re, hre, hform⟩ := exactConjugates?_cases h
  have h0 : 2 * i ≠ 0 := (Fraction.toOption_reduce hre).1
  have hre := Fraction.isReduced_of_reduce hre
  obtain rfl | ⟨root, im, hroot, him, rfl⟩ := hform
  · exact ⟨hre, h1, ⟨i.natAbs, by omega⟩, by omega⟩
  · have hx : Denotes (Rounding.ofInteger k) k :=
      denotes_ofInteger (by rw [abs_of_pos (by omega)]; exact hk)
    have hpos := ((toInteger?_sqrt_eq_some_iff hx h1 hk).mp hroot).1
    have hle := abs_le_of_toInteger? hroot
    obtain ⟨-, rfl⟩ := Fraction.toOption_reduce him
    refine ⟨hre, ?_, ?_⟩
    · rw [rat_abs_eq, abs_div, ← Int.cast_abs, ← Int.cast_abs]
      apply Fraction.isReduced_div
      · rw [abs_abs]
        omega
      · rw [abs_abs, abs_mul, abs_two]
        omega
      · exact abs_ne_zero.mpr h0
    · rw [rat_abs_eq, abs_pos]
      exact div_ne_zero (by exact_mod_cast hpos.ne') (by exact_mod_cast h0)

theorem wellFormed_exactParts? {radicand : ℤ} {form : Conjugates} (hu : Denotes u d)
    (hd : tolerance ≤ |d|) (hparts : exactParts? x y z u = some (i, j, radicand))
    (h : exactConjugates? i j radicand = some form) : form.WellFormed := by
  simp only [exactParts?, Option.bind_eq_bind, Option.bind_eq_some_iff] at hparts
  obtain ⟨i', hi, j', -, -, -, k, hk, heq⟩ := hparts
  cases heq
  have hle := abs_le.mp (abs_le_of_toInteger? hk)
  have hdist := abs_lt.mp ((toInteger?_eq_some_iff hu.abs).mp hk).2
  have hpos : (0 : ℚ) < radicand := by linarith
  exact wellFormed_exactConjugates? h (abs_le_of_toInteger? hi) (by exact_mod_cast hpos) hle.2

end Solution

namespace Regular

open Solution

/-- The smallest square roots do not vanish beside the largest coefficients. -/
theorem imaginary_pos (h : Regular x y z a b c d) (hu : Denotes u d) (hd : tolerance ≤ |d|) :
    0 < (sqrt u.abs / (2 * x)).abs := by
  obtain ⟨s, hs, hr⟩ := exists_isRoot hu.abs hd
  have hr' : SquareRoot.IsRoot |d| |s| := by rwa [abs_of_pos hr.pos]
  have hlow := one_div_le_abs_root hr' hd
  obtain ⟨r, hdiv, -⟩ := h.exists_denotes_div hs
    (((abs_of_pos hr.pos).trans_le hr.le).trans (pow_le_pow_right₀ (by norm_num) (by norm_num)))
  rw [denotes_zero.lt_iff hdiv.abs, abs_pos, ← hdiv.value_eq]
  intro h0
  have hclose := abs_mul_value_div_sub_le hs h.denotes_two_mul
    (mul_ne_zero two_ne_zero h.ne_zero) hdiv.isFinite
  have hunderflow := abs_mul_underflow_le h.denotes_two_mul
  rw [h0, mul_zero, zero_sub, abs_neg] at hclose
  norm_num at hlow hclose hunderflow
  linarith

theorem wellFormed_ofNegative (h : Regular x y z a b c d) (hu : Denotes u d) (hneg : d < 0)
    (hd : tolerance ≤ |d|) : (Roots.ofNegative x y z u).WellFormed u := by
  refine ⟨(hu.lt_iff denotes_zero).mpr hneg, h.imaginary_pos hu hd, fun form hform => ?_⟩
  obtain ⟨⟨i, j, radicand⟩, hparts, hform⟩ := Option.bind_eq_some_iff.mp hform
  exact wellFormed_exactParts? hu hd hparts hform

theorem wellFormed_ofCoefficients (h : Regular x y z a b c d) :
    (Roots.ofCoefficients x y z (y * y - 4 * x * z)).WellFormed (y * y - 4 * x * z) := by
  have hu := h.discriminant
  unfold Roots.ofCoefficients
  by_cases hn : isNegligible (y * y - 4 * x * z) = true
  · rw [if_pos hn]
    exact ⟨by simpa [isNegligible] using hn, wellFormed_ofRatio _ _⟩
  have hle : tolerance ≤ |d| := not_lt.mp (mt (isNegligible_iff hu).mpr hn)
  rw [if_neg hn]
  split_ifs with hpos
  · rw [abs_of_pos ((denotes_zero.lt_iff hu).mp hpos)] at hle
    exact wellFormed_ofPositive x y hu hle
  · have hle0 : d ≤ 0 := not_lt.mp (mt (denotes_zero.lt_iff hu).mpr hpos)
    have h0 : d ≠ 0 := abs_pos.mp (tolerance_pos.trans_le hle)
    exact h.wellFormed_ofNegative hu (lt_of_le_of_ne hle0 h0) hle

end Regular

namespace Solution

theorem lt_or_gt_zero (hx : epsilon ≤ x.abs) (hf : x.isFinite = true) : x < 0 ∨ 0 < x := by
  have hd := denotes_value hf
  rw [hd.lt_iff denotes_zero, denotes_zero.lt_iff hd]
  apply lt_or_gt_of_ne
  intro h0
  rw [denotes_epsilon.le_iff hd.abs, h0, abs_zero] at hx
  exact absurd tolerance_pos hx.not_gt

theorem wellFormed_solve (h : e.DegreeAttained) : e.solve.WellFormed := by
  have hle := h.epsilon_le
  have hsolved := solved_solve e
  generalize e.solve = solution at hsolved ⊢
  cases hsolved with
  | linear hd hf =>
    rw [hd] at hle
    simp only [isFinite, values, List.all_cons, Bool.and_eq_true] at hf
    exact ⟨lt_or_gt_zero (hle (by decide)) hf.1, wellFormed_ofRatio _ _⟩
  | quadratic hd hf =>
    have hreg := regular_ofEquation h hd hf
    rw [hd] at hle
    exact ⟨lt_or_gt_zero (hle (by decide)) hreg.second.isFinite, hreg.wellFormed_ofCoefficients⟩
  | allReals | noSolution | outOfRange | unsolvable => trivial

end Solution

namespace Equation

/-- Whatever terms are added, with reductions between them, the solution is well formed. -/
theorem wellFormed_solutions (edits : List Edit) : (run edits).solve.WellFormed :=
  Solution.wellFormed_solve (degreeAttained_run edits)

end Equation

end PolyEq
