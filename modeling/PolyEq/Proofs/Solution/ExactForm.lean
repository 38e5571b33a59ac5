import PolyEq.Proofs.Equation.Terms
import PolyEq.Proofs.Solution.Quadratic

/-! # The exact form of quadratic roots

Square discriminants in the exact range are recognised, of either sign. For a negative one the
converse fails at the numbers next to large squares: their roots are rounded to an integer, and
a fraction is reported in place of a square root.
-/

namespace PolyEq

open Binary64 SquareRoot

namespace Equation

def ofIntegers (a b c : ℤ) : Equation :=
  (((empty.add ⟨Rounding.ofInteger a, 2⟩ .left).add ⟨Rounding.ofInteger b, 1⟩ .left).add
    ⟨Rounding.ofInteger c, 0⟩ .left).reduce

variable {a b c n : ℤ}

theorem terms_ofIntegers (a b c : ℤ) : (ofIntegers a b c).terms =
    [⟨Rounding.ofInteger c, 0⟩, ⟨Rounding.ofInteger b, 1⟩, ⟨Rounding.ofInteger a, 2⟩].filter
      Term.isSignificant := rfl

theorem isSignificant_ofInteger (hn : |n| ≤ 2 ^ 53) (k : UInt64) :
    Term.isSignificant ⟨Rounding.ofInteger n, k⟩ = true ↔ n ≠ 0 := by
  rw [Term.isSignificant_iff (denotes_ofInteger hn)]
  constructor
  · rintro hle rfl
    simp only [Int.cast_zero, abs_zero] at hle
    exact absurd tolerance_pos (not_lt.mpr hle)
  · intro h0
    have h1 : (1 : ℚ) ≤ |(n : ℚ)| := by exact_mod_cast Int.one_le_abs h0
    have ht := tolerance_lt
    norm_num at ht
    linarith

theorem isQuadratic_ofIntegers (h0 : a ≠ 0) (ha : |a| ≤ 2 ^ 53) (hb : |b| ≤ 2 ^ 53)
    (hc : |c| ≤ 2 ^ 53) : IsQuadratic (ofIntegers a b c) a b c := by
  have hsa := (isSignificant_ofInteger ha 2).mpr h0
  have hda := denotes_ofInteger ha
  have hdb := denotes_ofInteger hb
  have hdc := denotes_ofInteger hc
  have hzero {n : ℤ} {k : UInt64} (hn : |n| ≤ 2 ^ 53)
      (h : Term.isSignificant ⟨Rounding.ofInteger n, k⟩ = false) : Denotes 0 n := by
    have h' : ¬ n ≠ 0 := fun h0 => by
      simp only [(isSignificant_ofInteger hn k).mpr h0] at h
      cases h
    simp only [not_not.mp h', Int.cast_zero]
    exact denotes_zero
  have hdeg : (ofIntegers a b c).degree = Term.lastExponent (ofIntegers a b c).terms := rfl
  have hcoef (k : UInt64) : (ofIntegers a b c).coefficient k =
    (((ofIntegers a b c).terms.find? (·.exponent == k)).map Term.coefficient).getD 0 := rfl
  simp only [terms_ofIntegers, List.filter_cons, List.filter_nil, if_pos hsa] at hdeg hcoef
  cases hsb : Term.isSignificant ⟨Rounding.ofInteger b, 1⟩ <;>
    cases hsc : Term.isSignificant ⟨Rounding.ofInteger c, 0⟩ <;>
    rw [hsb, hsc] at hdeg hcoef <;>
    refine ⟨hdeg, hcoef 2 ▸ hda, hcoef 1 ▸ ?_, hcoef 0 ▸ ?_⟩
  · exact hzero hb hsb
  · exact hzero hc hsc
  · exact hzero hb hsb
  · exact hdc
  · exact hdb
  · exact hzero hc hsc
  · exact hdb
  · exact hdc

end Equation

namespace Solution

variable {e : Equation} {a b c : ℤ}

/-- Quadratic equations with a square discriminant in the exact range are solved exactly. -/
theorem solve_square_discriminant (h : IsQuadratic e a b c) (hr : ExactRange a b c) :
    ∃ s : Quadratic, e.solve = .quadratic s ∧
      Denotes s.discriminant (b ^ 2 - 4 * a * c : ℤ) ∧
      (b ^ 2 - 4 * a * c = 0 → ∃ p, s.roots = .double (.exact (-b / (2 * a)) p)) ∧
      (0 < b ^ 2 - 4 * a * c → ∃ r pair, s.roots = .real r pair) ∧
      (b ^ 2 - 4 * a * c < 0 → ∃ re im form?, s.roots = .complex re im form?) ∧
      (∀ D : ℤ, 0 < D → b ^ 2 - 4 * a * c = D ^ 2 → ∃ r p q, Denotes r D ∧
        s.roots = .real r (.exact ((-b + D) / (2 * a)) ((-b - D) / (2 * a)) p q)) ∧
      ∀ D : ℤ, 0 < D → b ^ 2 - 4 * a * c = -D ^ 2 → ∃ re im,
        s.roots = .complex re im (some (.rational (-b / (2 * a)) (D / (2 * |a|)))) := by
  obtain ⟨hd, hle⟩ := denotes_discriminant h.second h.first h.constant hr
  have ha := h.second
  have hb := h.first
  have hc := h.constant
  refine ⟨_, solve_isQuadratic h hr, hd, ?_, ?_, ?_, ?_, ?_⟩ <;>
    simp only [Quadratic.ofEquation] at hd ⊢ <;> generalize b ^ 2 - 4 * a * c = n at *
  · rintro rfl
    simp only [Int.cast_zero] at hd
    simp only [ofCoefficients_zero _ _ _ hd, ofRatio_double ha hb hr.second hr.first hr.ne_zero]
    exact ⟨_, rfl⟩
  · intro hpos
    simp only [ofCoefficients_pos _ _ _ hd hpos]
    unfold Roots.ofPositive
    dsimp only
    split <;> exact ⟨_, _, rfl⟩
  · intro hneg
    simp only [ofCoefficients_neg _ _ _ hd hneg]
    exact ⟨_, _, _, rfl⟩
  · rintro D hD rfl
    have hsq : 0 < D ^ 2 := by positivity
    have hu := le_of_abs_le hle
    have hD' : |D| ≤ 2 ^ 53 := by rw [abs_of_pos hD]; nlinarith
    simp only [ofCoefficients_pos _ _ _ hd hsq,
      ofPositive_sq ha hb hr.second hr.first hr.ne_zero hd hD hu]
    exact ⟨_, _, _, denotes_ofInteger hD', rfl⟩
  · rintro D hD rfl
    have hsq : 0 < D ^ 2 := by positivity
    simp only [ofCoefficients_neg _ _ _ hd (by omega), ofNegative_eq ha hb hc hd
      (hr.second.trans (by norm_num)) (hr.first.trans (by norm_num))
      (hr.constant.trans (by norm_num)) hle]
    simp only [abs_neg, abs_of_pos hsq] at hle ⊢
    rw [exactConjugates?_of_roundsTo hr.second hr.first hr.ne_zero (by omega) hle hD (.inl rfl)]
    exact ⟨_, _, rfl⟩

theorem exactRange_one_neg_three_two : ExactRange 1 (-3) 2 := by
  constructor <;> norm_num

theorem solve_one_neg_three_two : ∃ s : Quadratic,
    (Equation.ofIntegers 1 (-3) 2).solve = .quadratic s ∧
      ∃ r p q, Denotes r 1 ∧ s.roots = .real r (.exact 2 1 p q) := by
  have he := Equation.isQuadratic_ofIntegers (a := 1) (b := -3) (c := 2) (by norm_num)
    (by norm_num) (by norm_num) (by norm_num)
  obtain ⟨s, hs, -, -, -, -, hreal, -⟩ := solve_square_discriminant he exactRange_one_neg_three_two
  obtain ⟨r, p, q, hr, h⟩ := hreal 1 one_pos (by norm_num)
  norm_num at hr h
  exact ⟨s, hs, r, p, q, hr, h⟩

/-- The form tells the truth about the conjugates `(-b ± √(-N)) / 2a`: it is rational only if
`N` is a square, and otherwise holds `N` itself. -/
def Conjugates.Faithful (a b N : ℤ) : Conjugates → Prop
  | .rational _ imaginary => IsSquare N ∧ imaginary ^ 2 = (N : ℚ) / (4 * a ^ 2)
  | .radical real radicand denominator =>
    radicand = N ∧ ¬ IsSquare N ∧ denominator = 2 * |a| ∧ real = (-b : ℚ) / (2 * a)

theorem solve_negative (h : IsQuadratic e a b c) (hr : ExactRange a b c)
    (hneg : b ^ 2 - 4 * a * c < 0) :
    4 * a * c - b ^ 2 ≤ 2 ^ 53 ∧ ∃ s re im, e.solve = .quadratic s ∧
      s.roots = .complex re im (exactConjugates? a b (4 * a * c - b ^ 2)) := by
  obtain ⟨hd, hle⟩ := denotes_discriminant h.second h.first h.constant hr
  have hN : |b ^ 2 - 4 * a * c| = 4 * a * c - b ^ 2 := by rw [abs_of_neg hneg, neg_sub]
  have hroots := (ofCoefficients_neg _ _ (e.coefficient 0) hd hneg).trans
    (ofNegative_eq h.second h.first h.constant hd (hr.second.trans (by norm_num))
      (hr.first.trans (by norm_num)) (hr.constant.trans (by norm_num)) hle)
  rw [hN] at hle hroots
  exact ⟨hle, _, _, _, solve_isQuadratic h hr, hroots⟩

/-- The form of complex roots is faithful unless `4 * a * c - b ^ 2` is next to the square of an
integer to which its root is rounded. -/
theorem faithful_iff (h : IsQuadratic e a b c) (hr : ExactRange a b c)
    (hneg : b ^ 2 - 4 * a * c < 0) :
    ∃ s re im form, e.solve = .quadratic s ∧ s.roots = .complex re im (some form) ∧
      (form.Faithful a b (4 * a * c - b ^ 2) ↔
        ∀ n, 0 < n → RoundsTo (4 * a * c - b ^ 2) n → 4 * a * c - b ^ 2 = n ^ 2) := by
  obtain ⟨hle, s, re, im, hs, hroots⟩ := solve_negative h hr hneg
  have hN1 : 1 ≤ 4 * a * c - b ^ 2 := by omega
  have h0 := hr.ne_zero
  have ha0 : (a : ℚ) ≠ 0 := by exact_mod_cast h0
  generalize 4 * a * c - b ^ 2 = N at *
  by_cases hex : ∃ n, 0 < n ∧ RoundsTo N n
  · obtain ⟨n, hn, hrn⟩ := hex
    rw [exactConjugates?_of_roundsTo hr.second hr.first h0 hN1 hle hn hrn] at hroots
    refine ⟨s, re, im, _, hs, hroots, ?_⟩
    have him : ((n : ℚ) / (2 * (|a| : ℤ))) ^ 2 = N / (4 * a ^ 2) ↔ N = n ^ 2 := by
      rw [Int.cast_abs, div_pow, mul_pow, sq_abs, show (2 : ℚ) ^ 2 = 4 by norm_num,
        div_left_inj' (by positivity), eq_comm]
      norm_cast
    constructor
    · rintro ⟨-, hsq⟩ m hm hrm
      rw [← hrn.unique hrm hn hm]
      exact him.mp hsq
    · intro hall
      have hNn := hall n hn hrn
      exact ⟨⟨n, by rw [hNn, sq]⟩, him.mpr hNn⟩
  · push Not at hex
    rw [exactConjugates?_of_not_roundsTo hr.second hr.first h0 hN1 hle hex] at hroots
    refine ⟨s, re, im, _, hs, hroots, ?_⟩
    constructor
    · intro _ n hn hrn
      exact absurd hrn (hex n hn)
    · rintro -
      refine ⟨rfl, ?_, rfl, rfl⟩
      rintro ⟨r, rfl⟩
      have hr0 : r ≠ 0 := by
        rintro rfl
        norm_num at hN1
      exact hex |r| (abs_pos.mpr hr0) (.inl (by rw [sq_abs, sq]))

theorem exactRange_one_zero (c : ℤ) (h0 : 0 ≤ c) (h : c ≤ 2 ^ 51) : ExactRange 1 0 c := by
  have hc : |c| = c := abs_of_nonneg h0
  constructor <;> norm_num [hc] <;> omega

theorem faithful_one_zero_one : ∃ s re im form,
    (Equation.ofIntegers 1 0 1).solve = .quadratic s ∧ s.roots = .complex re im (some form) ∧
      (form.Faithful 1 0 4 ↔ ∀ n, 0 < n → RoundsTo 4 n → (4 : ℤ) = n ^ 2) :=
  faithful_iff (Equation.isQuadratic_ofIntegers (by norm_num) (by norm_num) (by norm_num)
    (by norm_num)) (exactRange_one_zero 1 (by norm_num) (by norm_num)) (by norm_num)

/-- The discriminant of `X ^ 2 + 1125899940397056 = 0` is `1 - 67108865 ^ 2`, and the imaginary
part is reported as `67108865 / 2`. -/
theorem not_faithful_near_square :
    IsQuadratic (Equation.ofIntegers 1 0 1125899940397056) 1 0 1125899940397056 ∧
      ExactRange 1 0 1125899940397056 ∧ ∃ s re im form,
        (Equation.ofIntegers 1 0 1125899940397056).solve = .quadratic s ∧
          s.roots = .complex re im (some form) ∧
            ¬ form.Faithful 1 0 (4 * 1 * 1125899940397056 - 0 ^ 2) := by
  have hr := exactRange_one_zero 1125899940397056 (by norm_num) (by norm_num)
  have h : IsQuadratic (Equation.ofIntegers 1 0 1125899940397056) 1 0 1125899940397056 :=
    Equation.isQuadratic_ofIntegers (by norm_num) (by norm_num) (by norm_num) (by norm_num)
  obtain ⟨hle, s, re, im, hs, hroots⟩ := solve_negative h hr (by norm_num)
  have hform := exactConjugates?_of_roundsTo (n := 67108865) hr.second hr.first hr.ne_zero
    (by norm_num) hle (by norm_num) (.inr (.inl (by norm_num)))
  refine ⟨h, hr, s, re, im, _, hs, hroots.trans (congrArg _ hform), ?_⟩
  rintro ⟨hsq, -⟩
  revert hsq
  decide +kernel

end Solution

end PolyEq
