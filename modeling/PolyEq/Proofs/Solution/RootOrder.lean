import PolyEq.Proofs.Solution.ExactRoots
import PolyEq.Proofs.Solution.Residual

/-! # The order of two real roots

The two products in a discriminant that is not zero are different floats. So the difference is not
much smaller than either of them, and the square root of the discriminant is not lost when it is
added to the middle coefficient. The numerators then keep their distance through the rounding of
the sums and quotients.
-/

namespace PolyEq

open Binary64
open SquareRoot (IsRoot exists_isRoot)

variable {x y z u v : Float} {a b c d p q r s : ℚ} {i : ℤ}

namespace Binary64

theorem Representable.ulp_le_abs_sub (hq : Representable q) (hr : Representable r) (h : q ≠ r)
    (hle : |q| ≤ |r|) : ulp q ≤ |q - r| := by
  have hu := ulp_pos q
  obtain ⟨n, hn⟩ : ∃ n : ℤ, r = n * ulp q := by
    rcases hr.multiple_or_small q with hn | ⟨hgrid, hsmall⟩
    · exact hn
    · have heq : |r| = 2 ^ 52 * ulp q := le_antisymm hsmall ((ulp_le_abs hgrid).trans hle)
      rcases eq_or_eq_neg_of_abs_eq heq with heq | heq
      · exact ⟨2 ^ 52, by rw [heq]; norm_num⟩
      · exact ⟨-2 ^ 52, by rw [heq]; norm_num⟩
  have hq' : q = halfEven (q / ulp q) * ulp q := (nearest_of_representable hq).symm
  generalize halfEven (q / ulp q) = k at hq'
  have hk : k ≠ n := by
    rintro rfl
    exact h (hq'.trans hn.symm)
  have h1 : (1 : ℚ) ≤ |(k : ℚ) - n| := by
    exact_mod_cast Int.one_le_abs (sub_ne_zero.mpr hk)
  calc ulp q ≤ |(k : ℚ) - n| * ulp q := le_mul_of_one_le_left hu.le h1
    _ = |(k - n) * ulp q| := by rw [abs_mul, abs_of_pos hu]
    _ = |q - r| := by rw [sub_mul, ← hq', ← hn]

/-- A float is not much larger than its distance to another one. -/
theorem Representable.abs_le_mul_abs_sub (hq : Representable q) (hr : Representable r)
    (h : q ≠ r) : |q| ≤ 2 ^ 54 * |q - r| := by
  rcases le_total |q| |r| with hle | hle
  · have hulp := hq.ulp_le_abs_sub hr h hle
    have hlt := abs_lt_ulp q
    have h0 := abs_nonneg (q - r)
    norm_num at hlt ⊢
    linarith
  · have hulp := hr.ulp_le_abs_sub hq h.symm hle
    have hlt := abs_lt_ulp r
    have htri := abs_add_le (q - r) r
    rw [abs_sub_comm] at hulp
    have h0 := abs_nonneg (q - r)
    rw [sub_add_cancel] at htri
    norm_num at hlt ⊢
    linarith

end Binary64

namespace Regular

variable (h : Regular x y z a b c d)
include h

/-- The products differ, and so their difference is not much smaller than the first one. -/
theorem abs_first_product_le (hd : 0 < d) : |nearest (b * b)| ≤ 2 ^ 55 * d := by
  obtain ⟨hP, hQ⟩ := h.denotes_products
  have hdiff := h.discriminant_eq
  have hne : nearest (b * b) ≠ nearest (4 * a * c) := by
    intro heq
    rw [heq, sub_self, nearest_zero] at hdiff
    exact hd.ne' hdiff
  have hle := hP.representable.abs_le_mul_abs_sub hQ.representable hne
  have hround := hP.representable.abs_nearest_add_sub_le hQ.representable.neg
  rw [← sub_eq_add_neg, ← hdiff] at hround
  have hsub := abs_sub_abs_le_abs_sub (nearest (b * b) - nearest (4 * a * c)) d
  rw [abs_sub_comm _ d, abs_of_pos hd] at hsub
  generalize |nearest (b * b) - nearest (4 * a * c)| = w at *
  norm_num at hle hround ⊢
  linarith

/-- The middle coefficient is not so large that the root would be lost beside it. -/
theorem abs_first_le_mul_root (hr : IsRoot d s) (hd : tolerance ≤ d) : |b| ≤ 2 ^ 29 * s := by
  have ht := lt_tolerance
  have hproduct := h.abs_first_product_le (tolerance_pos.trans_le hd)
  have hround := abs_nearest_sub_le_add (b * b)
  have hsub := abs_sub_abs_le_abs_sub (b * b) (nearest (b * b))
  rw [abs_sub_comm (b * b), abs_mul_self] at hsub
  rw [abs_mul_self] at hround
  have hu : underflow ≤ 1 / 2 ^ 53 := zpow_le_one_div_two_pow (by norm_num)
  have hs := hr.le_sq
  refine abs_le_of_sq_le_sq ?_ (mul_nonneg (by norm_num) hr.pos.le)
  rw [mul_pow, sq b]
  norm_num at hproduct hround hu hs ht ⊢
  linarith

theorem abs_add_le_mul_root (hr : IsRoot d |s|) (hd : tolerance ≤ d) :
    |-b + s| ≤ 2 ^ 30 * |s| := by
  have hb := h.abs_first_le_mul_root hr hd
  have htri := abs_add_le (-b) s
  have hs := abs_nonneg s
  rw [abs_neg] at htri
  norm_num at hb ⊢
  linarith

/-- The quotients differ in the direction that the sign of the leading coefficient gives. -/
theorem mul_value_sub_pos (hr : IsRoot d s) (hd : tolerance ≤ d) (hs : Denotes u s)
    (hf : ((-y + u) / (2 * x)).isFinite = true) (hf' : ((-y - u) / (2 * x)).isFinite = true) :
    0 < a * (value ((-y + u) / (2 * x)) - value ((-y - u) / (2 * x))) := by
  have hsub := h.first.neg.rounds_sub hs
  rw [sub_eq_add_neg] at hsub
  have hfirst := h.abs_two_mul_value_sub_le hs.representable (h.first.neg.rounds_add hs) hf
  have hsecond := h.abs_two_mul_value_sub_le hs.representable.neg hsub hf'
  have hr₁ : IsRoot d |s| := by rwa [abs_of_pos hr.pos]
  have hr₂ : IsRoot d |-s| := by rwa [abs_neg]
  have hle₁ := h.abs_add_le_mul_root hr₁ hd
  have hle₂ := h.abs_add_le_mul_root hr₂ hd
  have hlow := one_div_le_abs_root hr₁ hd
  have hm := abs_mul_underflow_le h.denotes_two_mul
  rw [abs_neg] at hle₂
  rw [abs_of_pos hr.pos] at hle₁ hle₂ hlow
  generalize value ((-y + u) / (2 * x)) = v₁ at *
  generalize value ((-y - u) / (2 * x)) = v₂ at *
  have hlo := (abs_le.mp hfirst).1
  have hhi := (abs_le.mp hsecond).2
  have hpos : 0 < 2 * (a * (v₁ - v₂)) := by
    rw [show 2 * (a * (v₁ - v₂)) = 2 * a * v₁ - 2 * a * v₂ by ring]
    norm_num [-abs_mul] at hle₁ hle₂ hlow hm hlo hhi ⊢
    linarith
  linarith

end Regular

namespace Solution

def Pair.Descending : Pair → Prop
  | exact p q x y => q < p ∧ y < x
  | decimal x y => y < x

def Pair.Ascending : Pair → Prop
  | exact p q x y => p < q ∧ x < y
  | decimal x y => x < y

theorem integer_signs {k : ℤ} (hx : Denotes x a) (ha : tolerance ≤ |a|) (hu : Denotes u s)
    (hs : tolerance ≤ s) (hi : toInteger? x = some i) (hk : toInteger? u = some k) :
    0 < k ∧ (0 < a → 0 < i) ∧ (a < 0 → i < 0) := by
  have hai := abs_lt.mp ((toInteger?_eq_some_iff hx).mp hi).2
  have hsk := abs_lt.mp ((toInteger?_eq_some_iff hu).mp hk).2
  have hk0 : (0 : ℚ) < k := by linarith
  refine ⟨by exact_mod_cast hk0, fun hpos => ?_, fun hneg => ?_⟩
  · rw [abs_of_pos hpos] at ha
    have hi0 : (0 : ℚ) < i := by linarith
    exact_mod_cast hi0
  · rw [abs_of_neg hneg] at ha
    have hi0 : (i : ℚ) < 0 := by linarith
    exact_mod_cast hi0

theorem ordered_ofPositive (h : Regular x y z a b c d) (hu : Denotes u d) (hd : tolerance ≤ d)
    (hf : ∀ v ∈ (Roots.ofPositive x y u).values, v.isFinite = true) {pair : Pair}
    (hpair : Roots.ofPositive x y u = .real v pair) :
    (0 < a → pair.Descending) ∧ (a < 0 → pair.Ascending) := by
  obtain ⟨s, hs, hr⟩ := exists_isRoot hu hd
  simp only [values_ofPositive, List.forall_mem_cons] at hf
  have hpos := h.mul_value_sub_pos hr hd hs hf.2.1 hf.2.2.1
  have hdesc (ha : 0 < a) : (-y - sqrt u) / (2 * x) < (-y + sqrt u) / (2 * x) := by
    rw [lt_iff hf.2.2.1 hf.2.1]
    exact sub_pos.mp (pos_of_mul_pos_right hpos ha.le)
  have hasc (ha : a < 0) : (-y + sqrt u) / (2 * x) < (-y - sqrt u) / (2 * x) := by
    rw [lt_iff hf.2.1 hf.2.2.1]
    exact sub_neg.mp (neg_of_mul_pos_right hpos ha.le)
  obtain hroots | ⟨i, j, k, p, q, hi, -, hk, hexact, hroots⟩ := ofPositive_cases x y u <;>
    rw [hroots] at hpair <;> cases hpair
  · exact ⟨hdesc, hasc⟩
  · obtain ⟨-, rfl, rfl⟩ := eq_of_exactPair? hexact
    have hroot : tolerance ≤ s := by
      have hr' : IsRoot d |s| := by rwa [abs_of_pos hr.pos]
      have hlow := Regular.one_div_le_abs_root hr' hd
      rw [abs_of_pos hr.pos] at hlow
      exact (tolerance_lt.le.trans (by norm_num)).trans hlow
    obtain ⟨hk0, hi0, hi0'⟩ := integer_signs h.second h.tolerance_le hs hroot hi hk
    have hlt : (-j + -k : ℚ) < -j + k := by
      have hk0 : (0 : ℚ) < k := by exact_mod_cast hk0
      linarith
    refine ⟨fun ha => ⟨div_lt_div_of_pos_right hlt ?_, hdesc ha⟩,
      fun ha => ⟨(div_lt_div_right_of_neg ?_).mpr hlt, hasc ha⟩⟩
    · exact_mod_cast mul_pos two_pos (hi0 ha)
    · exact_mod_cast mul_neg_of_pos_of_neg two_pos (hi0' ha)

theorem ordered_ofCoefficients (h : Regular x y z a b c d)
    (hf : ∀ v ∈ (Roots.ofCoefficients x y z (y * y - 4 * x * z)).values, v.isFinite = true)
    {pair : Pair} (hpair : Roots.ofCoefficients x y z (y * y - 4 * x * z) = .real v pair) :
    (0 < a → pair.Descending) ∧ (a < 0 → pair.Ascending) := by
  have hd := h.discriminant
  unfold Roots.ofCoefficients at hf hpair
  split_ifs at hf hpair with hn hpos
  · have hle : tolerance ≤ |d| := not_lt.mp (mt (isNegligible_iff hd).mpr hn)
    rw [abs_of_pos ((denotes_zero.lt_iff hd).mp hpos)] at hle
    exact ordered_ofPositive h hd hle hf hpair
  · cases hpair

theorem exists_pair_of_realRoots {e : Equation} (h : e.solve.realRoots.length = 2) :
    ∃ s r pair, e.solve = .quadratic s ∧ s.roots = .real r pair := by
  generalize e.solve = solution at h
  cases solution with
  | quadratic s =>
    cases hroots : s.roots with
    | real r pair => exact ⟨s, r, pair, rfl, hroots⟩
    | double root => simp [realRoots, hroots, Roots.reals] at h
    | complex re im form => simp [realRoots, hroots, Roots.reals] at h
  | linear s => simp [realRoots] at h
  | unsolvable | allReals | noSolution | outOfRange => simp [realRoots] at h

end Solution

namespace Equation

open Solution

/-- Two real roots are never equal. The first is the greater one if the leading coefficient is
positive, and the smaller one if it is negative. -/
theorem ordered_real_roots (edits : List Edit) {s : Quadratic} {r : Float} {pair : Pair}
    (h : (run edits).solve = .quadratic s) (hroots : s.roots = .real r pair) :
    (0 < s.a ∨ s.a < 0) ∧ (0 < s.a → pair.Descending) ∧ (s.a < 0 → pair.Ascending) := by
  have hsolved := h ▸ solved_solve (run edits)
  cases hsolved with
  | quadratic hd hf =>
    have hreg := regular_ofEquation (degreeAttained_run edits) hd hf
    simp only [Solution.isFinite, values, List.all_cons, Bool.and_eq_true, List.all_eq_true] at hf
    have hordered := ordered_ofCoefficients hreg hf.2.2.2.2 hroots
    simp only [Quadratic.ofEquation, denotes_zero.lt_iff hreg.second,
      hreg.second.lt_iff denotes_zero]
    exact ⟨hreg.ne_zero.lt_or_gt.symm, hordered⟩

/-- The roots of `X ^ 2 + 10000000 * X + 1 = 0` lie far apart, and those of
`-X ^ 2 + 3 * X - 2 = 0` are fractions. -/
theorem ordered_absorbed_and_exact :
    (∃ s r pair, (run [.add ⟨1, 2⟩ .left, .add ⟨1e7, 1⟩ .left, .add ⟨1, 0⟩ .left]).solve =
        .quadratic s ∧ s.roots = .real r pair ∧ pair.Descending) ∧
      ∃ s r pair, (run [.add ⟨-1, 2⟩ .left, .add ⟨3, 1⟩ .left, .add ⟨-2, 0⟩ .left]).solve =
        .quadratic s ∧ s.roots = .real r pair ∧ pair.Ascending := by
  constructor
  · obtain ⟨s, r, pair, hs, hroots⟩ := exists_pair_of_realRoots
      (e := run [.add ⟨1, 2⟩ .left, .add ⟨1e7, 1⟩ .left, .add ⟨1, 0⟩ .left]) (by decide +kernel)
    have ha : 0 < s.a := by
      rw [eq_of_solve_quadratic hs]
      decide +kernel
    exact ⟨s, r, pair, hs, hroots, (ordered_real_roots _ hs hroots).2.1 ha⟩
  · obtain ⟨s, r, pair, hs, hroots⟩ := exists_pair_of_realRoots
      (e := run [.add ⟨-1, 2⟩ .left, .add ⟨3, 1⟩ .left, .add ⟨-2, 0⟩ .left]) (by decide +kernel)
    have ha : s.a < 0 := by
      rw [eq_of_solve_quadratic hs]
      decide +kernel
    exact ⟨s, r, pair, hs, hroots, (ordered_real_roots _ hs hroots).2.2 ha⟩

end Equation

end PolyEq
