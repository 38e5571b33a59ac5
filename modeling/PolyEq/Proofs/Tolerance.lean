import PolyEq.Tolerance
import PolyEq.Proofs.Binary64.Conversion

/-! # The tolerance

A float stands for an integer when its value is in the exact range and closer to the integer
than the tolerance. The test rounds and subtracts in floating point, but both steps are exact.
-/

namespace PolyEq

open Binary64 Float.Model.UnpackedFloat

def tolerance : ℚ :=
  7737125245533627 / 2 ^ 86

variable {x : Float} {q : ℚ} {n : ℤ}

theorem tolerance_pos : 0 < tolerance := by
  norm_num [tolerance]

theorem tolerance_lt : tolerance < 1 / 2 ^ 33 := by
  norm_num [tolerance]

theorem lt_tolerance : 1 / 2 ^ 34 < tolerance := by
  norm_num [tolerance]

theorem unpack_epsilon :
    epsilon.toModel.unpack = .finite .positive 7737125245533627 (-86) (by norm_num) := by
  rfl

theorem denotes_epsilon : Denotes epsilon tolerance := by
  constructor
  · change epsilon.toModel.unpack.isFinite = true
    rw [unpack_epsilon]
    rfl
  · simp only [value, unpack_epsilon]
    norm_num [unpackedValue, signed, tolerance]

theorem denotes_exactLimit : Denotes exactLimit (2 ^ 53) := by
  rw [show (2 ^ 53 : ℚ) = ((2 ^ 53 : ℤ) : ℚ) by norm_num]
  exact denotes_of_eq (by rfl) (by norm_num)

theorem isNegligible_iff (h : Denotes x q) : isNegligible x = true ↔ |q| < tolerance := by
  rw [isNegligible, decide_eq_true_iff, h.abs.lt_iff denotes_epsilon]

namespace Rounding

theorem abs_nearestNat_sub_le (m : ℕ) (e : ℤ) : |(nearestNat m e : ℚ) - m * 2 ^ e| ≤ 1 / 2 := by
  unfold nearestNat
  split_ifs with he
  · obtain ⟨k, rfl⟩ := Int.eq_ofNat_of_zero_le he
    simp only [Int.toNat_natCast, cast_shiftLeft, zpow_natCast, sub_self]
    norm_num
  · obtain ⟨k, hk⟩ := Int.eq_ofNat_of_zero_le (by omega : 0 ≤ -e)
    obtain rfl : e = -k := by omega
    simp only [neg_neg, Int.toNat_natCast, Nat.shiftLeft_eq, one_mul, zpow_neg, zpow_natCast,
      ← div_eq_mul_inv]
    have hp : (0 : ℚ) < 2 ^ k := by positivity
    set d := (2 * m + 2 ^ k) / (2 * 2 ^ k) with hd
    have hl : d * (2 * 2 ^ k) ≤ 2 * m + 2 ^ k := Nat.div_mul_le_self _ _
    have hu : 2 * m + 2 ^ k < (d + 1) * (2 * 2 ^ k) := by
      rw [mul_comm (d + 1)]
      exact Nat.lt_mul_div_succ _ (mul_pos two_pos (Nat.two_pow_pos k))
    have hl' : (d : ℚ) * (2 * 2 ^ k) ≤ 2 * m + 2 ^ k := by exact_mod_cast hl
    have hu' : 2 * (m : ℚ) + 2 ^ k < (d + 1) * (2 * 2 ^ k) := by exact_mod_cast hu
    simp only [abs_le]
    constructor
    · rw [← sub_nonneg, show (d : ℚ) - m / 2 ^ k - -(1 / 2) =
        ((d + 1) * (2 * 2 ^ k) - (2 * m + 2 ^ k)) / (2 * 2 ^ k) by field_simp; ring]
      exact div_nonneg (by linarith) (by positivity)
    · rw [← sub_nonneg, show (1 : ℚ) / 2 - (d - m / 2 ^ k) =
        (2 * m + 2 ^ k - d * (2 * 2 ^ k)) / (2 * 2 ^ k) by field_simp; ring]
      exact div_nonneg (by linarith) (by positivity)

theorem abs_nearestInteger_sub_le (x : Float) : |nearestInteger x - value x| ≤ 1 / 2 := by
  unfold nearestInteger value
  cases x.toModel.unpack with
  | finite s m e hm =>
    change |((s.apply (nearestNat m e) : ℤ) : ℚ) - signed s (m * 2 ^ e)| ≤ _
    have h := abs_nearestNat_sub_le m e
    simp only [apply_cast]
    cases s
    · rw [signed, signed, ← abs_neg]
      convert h using 2
      push_cast
      ring
    · exact h
  | _ => norm_num [unpackedValue]

theorem abs_nearestInteger_le (h : |value x| ≤ 2 ^ 53) : |nearestInteger x| ≤ 2 ^ 53 := by
  have hn := abs_nearestInteger_sub_le x
  simp only [abs_le] at h hn
  have hl : ((-2 ^ 53 - 1 : ℤ) : ℚ) < nearestInteger x := by push_cast; linarith
  have hu : (nearestInteger x : ℚ) < ((2 ^ 53 + 1 : ℤ) : ℚ) := by push_cast; linarith
  have hl' : -2 ^ 53 - 1 < nearestInteger x := by exact_mod_cast hl
  have hu' : nearestInteger x < 2 ^ 53 + 1 := by exact_mod_cast hu
  simp only [abs_le]
  constructor <;> omega

theorem nearestInteger_eq_value (h : 2 ^ 53 ≤ |value x|) : (nearestInteger x : ℚ) = value x := by
  obtain ⟨m, hm⟩ := (representable_value x).multiple (e := 1) (by norm_num at h ⊢; exact h)
  have hn := abs_nearestInteger_sub_le x
  have heq : nearestInteger x = m * 2 := by
    apply eq_of_abs_sub_lt_one
    push_cast
    rw [hm, zpow_one] at hn
    linarith
  rw [heq, hm, zpow_one]
  push_cast
  rfl

theorem representable_nearestInteger (x : Float) : Representable (nearestInteger x) := by
  rcases le_total |value x| (2 ^ 53) with h | h
  · exact representable_intCast (abs_nearestInteger_le h)
  · rw [nearestInteger_eq_value h]
    exact representable_value x

theorem abs_nearestInteger_lt (x : Float) : |(nearestInteger x : ℚ)| < 2 ^ (1024 : ℤ) := by
  rcases le_total |value x| (2 ^ 53) with h | h
  · exact abs_intCast_lt (abs_nearestInteger_le h)
  · rw [nearestInteger_eq_value h]
    exact abs_value_lt x

/-- A finite float is rounded to an integer without another error. -/
theorem denotes_toIntegral (hx : x.isFinite = true) :
    Denotes (toIntegral x) (nearestInteger x) := by
  have hr := representable_nearestInteger x
  have hlt := abs_nearestInteger_lt x
  unfold toIntegral nearestInteger at *
  obtain ⟨s, hu, hv⟩ | ⟨s, m, e, hm, hu, -, -, -⟩ := finite_cases hx
  · rw [hu]
    exact ⟨hx, by rw [hv]; norm_num⟩
  · rw [hu] at hr hlt ⊢
    cases s
    · have hcast : ((Sign.negative.apply (nearestNat m e) : ℤ) : ℚ) = -(nearestNat m e : ℤ) :=
        Int.cast_neg _
      rw [hcast] at hr hlt ⊢
      rw [abs_neg] at hlt
      have hr := hr.neg
      rw [neg_neg] at hr
      exact ((rounds_ofInteger _).denotes_of_representable hr hlt).neg
    · exact (rounds_ofInteger _).denotes_of_representable hr hlt

theorem denotes_scale : Denotes (ofInteger (tenPow decimalPlaces)) (10 ^ 6) := by
  have h : Denotes (ofInteger (tenPow decimalPlaces)) ((10 ^ 6 : ℤ) : ℚ) :=
    denotes_of_eq (by rfl) (by norm_num)
  rwa [Int.cast_pow, Int.cast_ofNat] at h

end Rounding

theorem representable_sub (hq : Representable q) (h : |n - q| ≤ 1 / 2) :
    Representable (n - q) := by
  by_cases hn : n = 0
  · subst hn
    simp only [Int.cast_zero, zero_sub]
    exact hq.neg
  have h1 : (1 : ℚ) ≤ |(n : ℚ)| := by exact_mod_cast Int.one_le_abs hn
  have hle : |n - q| ≤ |q| := by
    have h2 := abs_sub_abs_le_abs_sub (n : ℚ) q
    linarith
  obtain ⟨m, e, hm, he, rfl⟩ := hq
  rcases le_or_gt 0 e with h0 | h0
  · obtain ⟨k, rfl⟩ := Int.eq_ofNat_of_zero_le h0
    have hz : n = m * 2 ^ k := by
      apply eq_of_abs_sub_lt_one
      simp only [zpow_natCast] at h
      push_cast
      linarith
    simp only [hz, zpow_natCast]
    push_cast
    simp only [sub_self]
    exact representable_zero
  · obtain ⟨k, hk⟩ := Int.eq_ofNat_of_zero_le (by omega : 0 ≤ -e)
    obtain rfl : e = -k := by omega
    have hp : (0 : ℚ) < 2 ^ (-(k : ℤ)) := by positivity
    have hv : (n : ℚ) - m * 2 ^ (-(k : ℤ)) = (n * 2 ^ k - m : ℤ) * 2 ^ (-(k : ℤ)) := by
      push_cast
      rw [sub_mul, mul_assoc, ← zpow_natCast, ← zpow_add₀ (by norm_num)]
      simp
    refine ⟨n * 2 ^ k - m, -k, ?_, he, hv⟩
    simp only [hv, abs_mul, mul_le_mul_iff_left₀ (abs_pos.mpr hp.ne')] at hle
    exact (by exact_mod_cast hle : |n * 2 ^ k - m| ≤ |m|).trans hm

theorem isIntegerLike_iff (h : Denotes x q) : isIntegerLike x = true ↔
    |q| ≤ 2 ^ 53 ∧ |Rounding.nearestInteger x - q| < tolerance := by
  have hle : x.abs ≤ exactLimit ↔ |q| ≤ 2 ^ 53 := h.abs.le_iff denotes_exactLimit
  simp only [isIntegerLike, Bool.and_eq_true, h.isFinite, decide_eq_true_iff, hle]
  simp only [true_and]
  refine and_congr_right fun hq => ?_
  have hn := Rounding.abs_nearestInteger_sub_le x
  have hi := Rounding.denotes_toIntegral h.isFinite
  simp only [h.value_eq] at hn
  have hlt : |Rounding.nearestInteger x - q| < 2 ^ (1024 : ℤ) :=
    calc |Rounding.nearestInteger x - q| ≤ 1 / 2 := hn
      _ < 1 := by norm_num
      _ ≤ 2 ^ (1024 : ℤ) := one_le_zpow₀ (by norm_num) (by norm_num)
  have hd := (hi.rounds_sub h).denotes_of_representable
    (representable_sub h.representable hn) hlt
  exact hd.abs.lt_iff denotes_epsilon

theorem toInteger?_eq_some_iff (h : Denotes x q) :
    toInteger? x = some n ↔ |q| ≤ 2 ^ 53 ∧ |n - q| < tolerance := by
  have hn := Rounding.abs_nearestInteger_sub_le x
  simp only [h.value_eq] at hn
  have ht := tolerance_lt
  unfold toInteger?
  constructor
  · intro hi
    split_ifs at hi with hx
    · cases hi
      exact (isIntegerLike_iff h).mp hx
  · rintro ⟨hq, hlt⟩
    have heq : Rounding.nearestInteger x = n := by
      apply eq_of_abs_sub_lt_one
      calc |(Rounding.nearestInteger x : ℚ) - n| ≤
            |Rounding.nearestInteger x - q| + |q - n| := abs_sub_le _ _ _
        _ < 1 := by rw [abs_sub_comm q]; norm_num at ht; linarith
    simp [if_pos ((isIntegerLike_iff h).mpr ⟨hq, by rwa [heq]⟩), heq]

theorem toInteger?_of_denotes (h : Denotes x n) (hn : |n| ≤ 2 ^ 53) : toInteger? x = some n := by
  rw [toInteger?_eq_some_iff h, sub_self, abs_zero]
  exact ⟨by exact_mod_cast hn, tolerance_pos⟩

end PolyEq
