import PolyEq.Proofs.Binary64.Error
import PolyEq.Proofs.Solution.Magnitude

/-! # Residuals

A reported root nearly satisfies its equation if the discriminant and the square root are accurate
compared with the terms of the polynomial, and the quotient is. Multiplied by four times the leading
coefficient, the polynomial at `r` is a difference of squares in `2 * a * r`.
-/

namespace PolyEq

open Binary64
open SquareRoot (IsRoot)

variable {x y z u v : Float} {a b c d m p q r s w : ℚ}

/-- The terms of the polynomial at `r` cancel up to a thousandth of their magnitudes. -/
def NearRoot (a b c r : ℚ) : Prop :=
  |a * r ^ 2 + b * r + c| ≤ 1 / 10 ^ 3 * (|a| * r ^ 2 + |b| * |r| + |c|)

instance (a b c r : ℚ) : Decidable (NearRoot a b c r) :=
  inferInstanceAs (Decidable (_ ≤ _))

/-- The discriminant is zero, or the tolerance is small compared with the terms. -/
def ReliableDouble (a b c : ℚ) : Prop :=
  b ^ 2 = 4 * a * c ∨ 1 / 2 ^ 23 ≤ 3 * b ^ 2 + 4 * |a * c|

/-- The root `s` of the discriminant is exact, or it is not cut off and either `r` is not the root
that cancels or the product of the outer coefficients is not small. -/
def ReliableReal (a b c d s r : ℚ) : Prop :=
  s ^ 2 = b ^ 2 - 4 * a * c ∨ (d ≤ 2 ^ 228 ∧ |b| ≤ |2 * a * r|) ∨
    (d ≤ 2 ^ 220 ∧ b ^ 2 / 2 ^ 39 + 1 / 2 ^ 56 ≤ 4 * |a * c|)

instance (a b c : ℚ) : Decidable (ReliableDouble a b c) :=
  inferInstanceAs (Decidable (_ ∨ _))

instance (a b c d s r : ℚ) : Decidable (ReliableReal a b c d s r) :=
  inferInstanceAs (Decidable (_ ∨ _ ∨ _))

/-- Zero or not negligible, as every coefficient is after a reduction. -/
def Sizable (q : ℚ) : Prop :=
  q = 0 ∨ tolerance ≤ |q|

/-- The magnitudes of the terms, multiplied by four times the leading coefficient. -/
def magnitude (b k w : ℚ) : ℚ :=
  w ^ 2 + 2 * |b * w| + 4 * |k|

theorem nearRoot_of_le (ha : a ≠ 0)
    (h : |(2 * a * r + b) ^ 2 - (b ^ 2 - 4 * a * c)| ≤
      1 / 10 ^ 3 * magnitude b (a * c) (2 * a * r)) : NearRoot a b c r := by
  have hpos : 0 < 4 * |a| := by positivity
  have hleft : |(2 * a * r + b) ^ 2 - (b ^ 2 - 4 * a * c)| =
      4 * |a| * |a * r ^ 2 + b * r + c| := by
    rw [show (2 * a * r + b) ^ 2 - (b ^ 2 - 4 * a * c) = 4 * a * (a * r ^ 2 + b * r + c) by ring,
      abs_mul, abs_mul]
    norm_num
  have hright : magnitude b (a * c) (2 * a * r) =
      4 * |a| * (|a| * r ^ 2 + |b| * |r| + |c|) := by
    rw [magnitude, abs_mul, abs_mul, abs_mul, abs_mul, abs_two, mul_pow, mul_pow, ← sq_abs a]
    ring
  rw [hleft, hright, mul_left_comm] at h
  exact le_of_mul_le_mul_left h hpos

/-- Replacing `v` by a number near it changes the square of `v + b` little. -/
theorem abs_sub_mul_abs_add_le {v : ℚ} (hw : |v - w| ≤ |w| / 2 ^ 15) :
    |v - w| * |v + w + 2 * b| ≤ 1 / 10 ^ 4 * (v ^ 2 + 2 * |b * v|) := by
  have hv := abs_nonneg v
  have hwv : |w| ≤ 1001 / 1000 * |v| := by
    have := abs_sub_abs_le_abs_sub w v
    rw [abs_sub_comm w v] at this
    norm_num at hw ⊢
    linarith
  have hsum : |v + w + 2 * b| ≤ 2001 / 1000 * |v| + 2 * |b| := by
    have h₁ := abs_add_le (v + w) (2 * b)
    have h₂ := abs_add_le v w
    rw [abs_mul 2, abs_two] at h₁
    linarith
  have hdiff : |v - w| ≤ 1001 / 1000 / 2 ^ 15 * |v| := by
    norm_num at hw ⊢
    linarith
  calc |v - w| * |v + w + 2 * b| ≤
        1001 / 1000 / 2 ^ 15 * |v| * (2001 / 1000 * |v| + 2 * |b|) := by gcongr
    _ = 1001 / 1000 / 2 ^ 15 * (2001 / 1000 * v ^ 2 + 2 * |b * v|) := by
      rw [abs_mul, ← sq_abs v]
      ring
    _ ≤ 1 / 10 ^ 4 * (v ^ 2 + 2 * |b * v|) := by
      have hsq := sq_nonneg v
      have hbv := abs_nonneg (b * v)
      generalize |b * v| = t at *
      norm_num
      linarith

/-- It is enough to look at a number near `2 * a * r`. -/
theorem nearRoot_of_approx (ha : a ≠ 0) (hw : |2 * a * r - w| ≤ |w| / 2 ^ 15)
    (h : |(w + b) ^ 2 - (b ^ 2 - 4 * a * c)| ≤ 9 / 10 ^ 4 * magnitude b (a * c) (2 * a * r)) :
    NearRoot a b c r := by
  refine nearRoot_of_le ha ?_
  have hprod := abs_sub_mul_abs_add_le (b := b) hw
  unfold magnitude at *
  generalize 2 * a * r = v at *
  generalize b ^ 2 - 4 * a * c = D at *
  have htri : |(v + b) ^ 2 - D| ≤ |v - w| * |v + w + 2 * b| + |(w + b) ^ 2 - D| := by
    rw [← abs_mul, show (v + b) ^ 2 - D = (v - w) * (v + w + 2 * b) + ((w + b) ^ 2 - D) by ring]
    exact abs_add_le _ _
  have hk := abs_nonneg (a * c)
  generalize |b * v| = t at *
  generalize |a * c| = k at *
  norm_num at h hprod ⊢
  linarith

theorem nearRoot_of_root (ha : a ≠ 0)
    (hw : |2 * a * r - (-b + s)| ≤ |-b + s| / 2 ^ 51 + |2 * a| * underflow)
    (hu : |2 * a| * underflow ≤ |-b + s| / 2 ^ 16)
    (hs : |s ^ 2 - (b ^ 2 - 4 * a * c)| ≤ 9 / 10 ^ 4 * magnitude b (a * c) (2 * a * r)) :
    NearRoot a b c r := by
  refine nearRoot_of_approx ha ?_ (by rwa [neg_add_cancel_comm])
  have := abs_nonneg (-b + s)
  norm_num [-abs_mul] at hw hu ⊢
  linarith

namespace Sizable

theorem abs_nearest_mul_sub_le (hp : Sizable p) (hq : Sizable q) :
    |nearest (p * q) - p * q| ≤ |p * q| / 2 ^ 53 := by
  obtain rfl | hp := hp
  · simp
  obtain rfl | hq := hq
  · simp
  refine abs_nearest_sub_le_mul ?_
  have ht := lt_tolerance
  calc (2 : ℚ) ^ (-1022 : ℤ) ≤ 1 / 2 ^ 68 := zpow_le_one_div_two_pow (by norm_num)
    _ = 1 / 2 ^ 34 * (1 / 2 ^ 34) := by norm_num
    _ ≤ |p| * |q| := by
      gcongr
      · exact ht.le.trans hp
      · exact ht.le.trans hq
    _ = |p * q| := (abs_mul p q).symm

theorem neg (hq : Sizable q) : Sizable (-q) := by
  rwa [Sizable, neg_eq_zero, abs_neg]

end Sizable

theorem abs_mul_value_div_sub_le (hu : Denotes u p) (hv : Denotes v m) (h0 : m ≠ 0)
    (hf : (u / v).isFinite = true) :
    |m * value (u / v) - p| ≤ |p| / 2 ^ 53 + |m| * underflow := by
  have hn := abs_nearest_sub_le_add (p / m)
  rw [← (hu.rounds_div hv h0).value_eq hf] at hn
  have hm : |m * value (u / v) - p| = |m| * |value (u / v) - p / m| := by
    rw [← abs_mul, mul_sub, mul_div_cancel₀ _ h0]
  calc |m * value (u / v) - p| ≤ |m| * (|p / m| / 2 ^ 53 + underflow) := by
        rw [hm]
        gcongr
    _ = |p| / 2 ^ 53 + |m| * underflow := by
      rw [mul_add, abs_div, ← mul_div_assoc, mul_div_cancel₀ _ (abs_pos.mpr h0).ne']

theorem abs_mul_underflow_le (hv : Denotes v m) : |m| * underflow ≤ 1 / 2 ^ 51 := by
  calc |m| * underflow ≤ 2 ^ 1024 * underflow := by
        gcongr
        · exact underflow_pos.le
        · exact hv.lt.le
    _ = 2 ^ (-51 : ℤ) := by
      rw [underflow, ← zpow_natCast, ← zpow_add₀ (by norm_num)]
      norm_num
    _ ≤ 1 / 2 ^ 51 := zpow_le_one_div_two_pow (by norm_num)

theorem Sizable.abs_mul_value_div_sub_le (hp : Sizable p) (hu : Denotes u p) (hv : Denotes v m)
    (h0 : m ≠ 0) (hf : (u / v).isFinite = true) :
    |m * value (u / v) - p| ≤ |p| / 2 ^ 16 := by
  obtain rfl | hp := hp
  · rw [(hu.rounds_div hv h0).value_eq hf, zero_div, nearest_zero]
    simp
  · have hn := PolyEq.abs_mul_value_div_sub_le hu hv h0 hf
    have hm := abs_mul_underflow_le hv
    have ht := lt_tolerance
    norm_num at hn hm ht ⊢
    linarith

theorem abs_sub_sub_le (d p q p' q' : ℚ) :
    |d - (p' - q')| ≤ |d - (p - q)| + |p - p'| + |q - q'| := by
  have h₁ := abs_add_le (d - (p - q)) ((p - p') - (q - q'))
  have h₂ := abs_sub (p - p') (q - q')
  rw [show d - (p - q) + ((p - p') - (q - q')) = d - (p' - q') by ring] at h₁
  linarith

namespace Regular

variable (h : Regular x y z a b c d) (hb : Sizable b) (hc : Sizable c)

section
include h hb hc

theorem abs_discriminant_sub_le :
    |d - (b ^ 2 - 4 * a * c)| ≤ (b ^ 2 + 4 * |a * c|) * (1001 / 1000 / 2 ^ 52) := by
  obtain ⟨hP, hQ⟩ := h.denotes_products
  have h4a : Sizable (4 * a) := by
    refine .inr (h.tolerance_le.trans ?_)
    rw [abs_mul]
    exact le_mul_of_one_le_left (abs_nonneg a) (by norm_num)
  have hd := h.discriminant_eq
  have e₁ := hb.abs_nearest_mul_sub_le hb
  have e₂ := h4a.abs_nearest_mul_sub_le hc
  have e₃ := hP.representable.abs_nearest_add_sub_le hQ.representable.neg
  rw [← sub_eq_add_neg, ← hd] at e₃
  have hbb : |b * b| = b ^ 2 := by rw [abs_mul_self, sq]
  have hac : |4 * a * c| = 4 * |a * c| := by rw [mul_assoc, abs_mul]; norm_num
  rw [hbb] at e₁
  rw [hac] at e₂
  have hPQ := abs_sub (nearest (b * b)) (nearest (4 * a * c))
  have hPle := abs_add_le (nearest (b * b) - b * b) (b * b)
  have hQle := abs_add_le (nearest (4 * a * c) - 4 * a * c) (4 * a * c)
  rw [sub_add_cancel, hbb] at hPle
  rw [sub_add_cancel, hac] at hQle
  have htri := abs_sub_sub_le d (nearest (b * b)) (nearest (4 * a * c)) (b * b) (4 * a * c)
  rw [← sq b] at htri hPQ hPle e₁ e₃
  have hM : 0 ≤ b ^ 2 + 4 * |a * c| := by positivity
  norm_num [-abs_mul] at e₁ e₂ e₃ ⊢
  linarith

/-- Below `2 ^ 228` the square of the root is accurate compared with all terms. -/
theorem abs_sq_sub_le (hr : IsRoot d s) (hd : tolerance ≤ d) (hu : d ≤ 2 ^ 228) :
    |s ^ 2 - (b ^ 2 - 4 * a * c)| ≤ 9 / 10 ^ 4 * (b ^ 2 + 4 * |a * c|) := by
  have he := h.abs_discriminant_sub_le hb hc
  have hlo := hr.le_sq
  have hhi := hr.sq_le hu
  have ht := tolerance_lt
  have ht0 := tolerance_pos
  have hd0 : 0 ≤ d := ht0.le.trans hd
  have htol : tolerance ^ 2 ≤ d * (1 / 2 ^ 33) := by
    rw [sq]
    gcongr
  have hac := neg_abs_le (a * c)
  rw [mul_assoc 4 a c] at *
  generalize a * c = k at *
  generalize tolerance ^ 2 = t at *
  generalize b ^ 2 = B at *
  rw [abs_le] at he ⊢
  norm_num at he hlo hhi htol ⊢
  constructor <;> linarith

/-- Below `2 ^ 220` it is accurate compared with the product of the outer coefficients, unless that
is small. -/
theorem abs_sq_sub_le_sharp (hr : IsRoot d s) (hu : d ≤ 2 ^ 220)
    (hk : b ^ 2 / 2 ^ 39 + 1 / 2 ^ 56 ≤ 4 * |a * c|) :
    |s ^ 2 - (b ^ 2 - 4 * a * c)| ≤ 9 / 10 ^ 4 * (4 * |a * c|) := by
  have he := h.abs_discriminant_sub_le hb hc
  have hlo := hr.le_sq
  have hhi := hr.sq_le_sharp hu
  have htol : tolerance ^ 2 ≤ 1001 / 1000 / 10 ^ 20 := by
    norm_num [tolerance]
  have hac := neg_abs_le (a * c)
  rw [mul_assoc 4 a c] at *
  generalize a * c = k at *
  generalize tolerance ^ 2 = t at *
  generalize b ^ 2 = B at *
  rw [abs_le] at he ⊢
  norm_num at he hlo hhi htol hk ⊢
  constructor <;> linarith

end

section
include h

theorem abs_two_mul_value_sub_le (hs : Representable s) (hu : Rounds u (-b + s))
    (hf : (u / (2 * x)).isFinite = true) :
    |2 * a * value (u / (2 * x)) - (-b + s)| ≤ |-b + s| / 2 ^ 51 + |2 * a| * underflow := by
  have huf := isFinite_of_div hf
  have h0 : 2 * a ≠ 0 := mul_ne_zero two_ne_zero h.ne_zero
  have hq := abs_mul_value_div_sub_le ⟨huf, hu.value_eq huf⟩ h.denotes_two_mul h0 hf
  have hn := h.first.representable.neg.abs_nearest_add_sub_le hs
  have hp := abs_add_le (nearest (-b + s) - (-b + s)) (-b + s)
  have htri := abs_sub_le (2 * a * value (u / (2 * x))) (nearest (-b + s)) (-b + s)
  have hw := abs_nonneg (-b + s)
  rw [sub_add_cancel] at hp
  norm_num [-abs_mul] at hq hn ⊢
  linarith

omit h in
theorem one_div_le_abs_root (hr : IsRoot d |s|) (hd : tolerance ≤ d) : 1 / 2 ^ 18 ≤ |s| := by
  have ht := lt_tolerance
  refine le_of_sq_le_sq (le_trans ?_ hr.le_sq) (abs_nonneg s)
  norm_num at ht ⊢
  linarith

/-- The underflow of the quotient is small for a root that is not the smaller one. -/
theorem underflow_le_of_le (hr : IsRoot d |s|) (hd : tolerance ≤ d)
    (hw : |w - (-b + s)| ≤ |-b + s| / 2 ^ 51 + |2 * a| * underflow) (hle : |b| ≤ |w|) :
    |2 * a| * underflow ≤ |-b + s| / 2 ^ 16 := by
  have hm := abs_mul_underflow_le h.denotes_two_mul
  have hs := one_div_le_abs_root hr hd
  have hsum := abs_add_le (-b + s) b
  have htri := abs_add_le (w - (-b + s)) (-b + s)
  rw [neg_add_cancel_comm] at hsum
  rw [sub_add_cancel] at htri
  norm_num [-abs_mul] at hm hs hw ⊢
  linarith

theorem underflow_le_of_product (hc : Sizable c) (hr : IsRoot d |s|) (hk : a * c ≠ 0)
    (hs : |s ^ 2 - (b ^ 2 - 4 * a * c)| ≤ 9 / 10 ^ 4 * (4 * |a * c|)) :
    |2 * a| * underflow ≤ |-b + s| / 2 ^ 16 := by
  have hct : tolerance ≤ |c| := hc.resolve_left (right_ne_zero_of_mul hk)
  have ht := lt_tolerance
  have ha : |2 * a| ≤ 2 ^ 33 * (4 * |a * c|) := by
    rw [abs_mul, abs_mul, abs_two]
    have := abs_nonneg a
    norm_num at ht ⊢
    nlinarith
  have hprod : 4 * |a * c| ≤ 2 * (|-b + s| * |s + b|) := by
    rw [← abs_mul, show (-b + s) * (s + b) = s ^ 2 - b ^ 2 by ring]
    have htri := abs_sub (s ^ 2 - (b ^ 2 - 4 * a * c)) (s ^ 2 - b ^ 2)
    rw [show s ^ 2 - (b ^ 2 - 4 * a * c) - (s ^ 2 - b ^ 2) = 4 * (a * c) by ring, abs_mul] at htri
    have := abs_nonneg (a * c)
    norm_num [-abs_mul] at hs htri ⊢
    linarith
  have hsum : |s + b| ≤ 2 ^ 911 := by
    have hb := h.abs_add_root_le (s := -s) ((abs_neg s).trans_le hr.le)
    rwa [← neg_add, abs_neg, add_comm] at hb
  calc |2 * a| * underflow ≤ 2 ^ 33 * (2 * (|-b + s| * 2 ^ 911)) * underflow := by
        refine mul_le_mul_of_nonneg_right (ha.trans ?_) underflow_pos.le
        refine mul_le_mul_of_nonneg_left (hprod.trans ?_) (by norm_num)
        gcongr
    _ = |-b + s| * (2 ^ 34 * 2 ^ 911 * underflow) := by
      generalize (2 : ℚ) ^ 911 = n
      ring
    _ ≤ |-b + s| * (1 / 2 ^ 16) := by
      gcongr
      rw [← pow_add, underflow, ← zpow_natCast, ← zpow_add₀ (by norm_num)]
      exact zpow_le_one_div_two_pow (by norm_num)
    _ = |-b + s| / 2 ^ 16 := mul_one_div _ _

theorem underflow_le_of_exact (hc : Sizable c) (hr : IsRoot d |s|) (hd : tolerance ≤ d)
    (h0 : -b + s ≠ 0) (hsq : s ^ 2 = b ^ 2 - 4 * a * c) :
    |2 * a| * underflow ≤ |-b + s| / 2 ^ 16 := by
  by_cases hk : a * c = 0
  · rw [mul_assoc, hk, mul_zero, sub_zero] at hsq
    obtain hs | hs := sq_eq_sq_iff_eq_or_eq_neg.mp hsq
    · exact absurd (by rw [hs, neg_add_cancel]) h0
    · have hle := one_div_le_abs_root hr hd
      have hm := abs_mul_underflow_le h.denotes_two_mul
      rw [← hs, ← two_mul, abs_mul 2 s, abs_two]
      norm_num [-abs_mul] at hm hle ⊢
      linarith
  · refine h.underflow_le_of_product hc hr hk ?_
    rw [hsq, sub_self, abs_zero]
    positivity

end

section
include h hb hc

omit hb in
/-- If the reported root of the discriminant is exact, so are both numerators but for rounding. -/
theorem nearRoot_exact (hr : IsRoot d |s|) (hd : tolerance ≤ d) (hs : Representable s)
    (hu : Rounds u (-b + s)) (hf : (u / (2 * x)).isFinite = true)
    (hsq : s ^ 2 = b ^ 2 - 4 * a * c) : NearRoot a b c (value (u / (2 * x))) := by
  by_cases h0 : -b + s = 0
  · have huf := isFinite_of_div hf
    have hu0 : Denotes u 0 := ⟨huf, by rw [hu.value_eq huf, h0, nearest_zero]⟩
    have hv := (hu0.rounds_div h.denotes_two_mul (mul_ne_zero two_ne_zero h.ne_zero)).value_eq hf
    have hc0 : c = 0 := by
      have hk : 4 * a * c = 0 := by
        rw [neg_add_eq_zero.mp h0] at hsq
        linarith
      exact (mul_eq_zero.mp hk).resolve_left (mul_ne_zero four_ne_zero h.ne_zero)
    rw [hv, zero_div, nearest_zero, hc0]
    simp [NearRoot]
  · refine nearRoot_of_root h.ne_zero (h.abs_two_mul_value_sub_le hs hu hf)
      (h.underflow_le_of_exact hc hr hd h0 hsq) ?_
    rw [hsq, sub_self, abs_zero]
    unfold magnitude
    positivity

theorem nearRoot_real (hr : IsRoot d |s|) (hd : tolerance ≤ d) (hs : Representable s)
    (hu : Rounds u (-b + s)) (hf : (u / (2 * x)).isFinite = true)
    (hrel : ReliableReal a b c d s (value (u / (2 * x)))) :
    NearRoot a b c (value (u / (2 * x))) := by
  obtain hsq | hrel := hrel
  · exact h.nearRoot_exact hc hr hd hs hu hf hsq
  have hw := h.abs_two_mul_value_sub_le hs hu hf
  generalize value (u / (2 * x)) = r at *
  have hbv := abs_nonneg (b * (2 * a * r))
  obtain ⟨hu, hle⟩ | ⟨hu, hk⟩ := hrel
  · have hsq := h.abs_sq_sub_le hb hc hr hd hu
    refine nearRoot_of_root h.ne_zero hw (h.underflow_le_of_le hr hd hw hle) ?_
    rw [← sq_abs s]
    refine hsq.trans ?_
    unfold magnitude
    have := sq_le_sq.mpr hle
    gcongr
    linarith
  · have hsq := h.abs_sq_sub_le_sharp hb hc hr hu hk
    have hac : a * c ≠ 0 := by
      rintro h0
      have := sq_nonneg b
      rw [h0, abs_zero] at hk
      norm_num at hk
      linarith
    rw [sq_abs] at hsq
    refine nearRoot_of_root h.ne_zero hw (h.underflow_le_of_product hc hr hac hsq) ?_
    refine hsq.trans ?_
    unfold magnitude
    have := sq_nonneg (2 * a * r)
    gcongr
    linarith

theorem nearRoot_double (hd : |d| < tolerance) (hf : (-y / (2 * x)).isFinite = true)
    (hrel : ReliableDouble a b c) : NearRoot a b c (value (-y / (2 * x))) := by
  have h0 : 2 * a ≠ 0 := mul_ne_zero two_ne_zero h.ne_zero
  have hw := hb.neg.abs_mul_value_div_sub_le h.first.neg h.denotes_two_mul h0 hf
  generalize value (-y / (2 * x)) = r at *
  refine nearRoot_of_approx (w := -b) h.ne_zero (hw.trans ?_) ?_
  · gcongr <;> norm_num
  · rw [neg_add_cancel, zero_pow two_ne_zero, zero_sub, abs_neg]
    obtain heq | hle := hrel
    · rw [heq, sub_self, abs_zero]
      unfold magnitude
      positivity
    · have he := h.abs_discriminant_sub_le hb hc
      have hD : |b ^ 2 - 4 * a * c| ≤ |d - (b ^ 2 - 4 * a * c)| + |d| := by
        have := abs_sub d (d - (b ^ 2 - 4 * a * c))
        rw [sub_sub_cancel] at this
        linarith
      have hbv : |b| * (1 - 1 / 2 ^ 16) ≤ |2 * a * r| := by
        have := abs_sub_abs_le_abs_sub (-b) (2 * a * r)
        rw [abs_sub_comm, abs_neg] at this
        rw [abs_neg] at hw
        linarith
      have hv2 : b ^ 2 * (1 - 1 / 2 ^ 15) ≤ (2 * a * r) ^ 2 := by
        have := pow_le_pow_left₀ (by positivity) hbv 2
        rw [mul_pow, sq_abs, sq_abs] at this
        refine le_trans ?_ this
        gcongr
        norm_num
      have hbv2 : b ^ 2 * (1 - 1 / 2 ^ 16) ≤ |b * (2 * a * r)| := by
        rw [abs_mul, ← sq_abs b, sq, mul_assoc]
        gcongr
      have ht : tolerance ≤ 839 / 10 ^ 6 * (1 / 2 ^ 23) := by
        norm_num [tolerance]
      have hac := abs_nonneg (a * c)
      have hbb := sq_nonneg b
      unfold magnitude
      generalize |b * (2 * a * r)| = t at *
      generalize |a * c| = k at *
      norm_num at *
      linarith

end

end Regular

theorem nearRoot_linear (hx : Denotes x a) (hy : Denotes y b) (ha : a ≠ 0) (hb : Sizable b)
    (hf : (-y / x).isFinite = true) : NearRoot 0 a b (value (-y / x)) := by
  have hw := hb.neg.abs_mul_value_div_sub_le hy.neg hx ha hf
  generalize value (-y / x) = r at *
  have har : 0 ≤ |a| * |r| := by positivity
  have hb0 := abs_nonneg b
  rw [sub_neg_eq_add, abs_neg] at hw
  unfold NearRoot
  rw [zero_mul, zero_add, abs_zero, zero_mul, zero_add]
  generalize |a| * |r| = t at *
  norm_num at hw ⊢
  linarith

end PolyEq
