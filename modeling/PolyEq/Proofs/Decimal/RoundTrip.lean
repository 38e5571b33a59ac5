import PolyEq.Decimal.Display
import PolyEq.Proofs.Binary64.Conversion
import PolyEq.Proofs.Decimal.Text
import PolyEq.Text.WhiteSpace
import Mathlib

/-! # Numbers are read back from their text

The shortest decimal of a finite float reads back as its magnitude: either the search tested
it, or it is the exact value. Digits of a count read back as the count.
-/

namespace PolyEq

open Binary64 Float.Model

variable {l : List Char} {c : Char} {x y : Float}

theorem isWhiteSpace_of_isDigit (h : c.isDigit = true) : isWhiteSpace c = false := by
  simp only [Char.isDigit, Bool.and_eq_true, decide_eq_true_eq, UInt32.le_iff_toNat_le] at h
  obtain ⟨h₁, h₂⟩ := h
  have hl : 48 ≤ c.toNat := h₁
  have hu : c.toNat ≤ 57 := h₂
  simp [isWhiteSpace]
  omega

theorem ne_of_isDigit {d : Char} (h : c.isDigit = true) (hd : d.isDigit = false) : c ≠ d := by
  rintro rfl
  exact absurd h (by simp [hd])

namespace IsPlain

theorem ne_nil (h : IsPlain l) : l ≠ [] := by
  obtain ⟨c, later, rfl, -⟩ := h.head
  exact List.cons_ne_nil _ _

theorem trimStart (h : IsPlain l) : trimStart l = l := by
  obtain ⟨c, later, rfl, hc⟩ := h.head
  simp [PolyEq.trimStart, isWhiteSpace_of_isDigit hc]

theorem trimEnd (h : IsPlain l) : trimEnd l = l := by
  obtain ⟨earlier, c, rfl, hc⟩ := h.last
  simp [PolyEq.trimEnd, isWhiteSpace_of_isDigit hc]

theorem trim (h : IsPlain l) : trim l = l := by
  simp [PolyEq.trim, h.trimStart, h.trimEnd]

end IsPlain

namespace Decimal

/-- The fallback of the search is the number itself. -/
theorem toFloat_exact {n p : ℕ} (h : Denotes x (n / 2 ^ p)) (h0 : 0 < n) :
    toFloat ⟨n * Nat.pow 5 p, p⟩ = x := by
  have hq : (0 : ℚ) < n / 2 ^ p := by positivity
  have hr : Rounds (toFloat ⟨n * Nat.pow 5 p, p⟩) (n / 2 ^ p) := by
    have hv : ((n * Nat.pow 5 p : ℕ) : ℚ) * 10 ^ (-(p : ℤ)) = n / 2 ^ p := by
      have hp : (10 : ℚ) ^ p = 5 ^ p * 2 ^ p := by rw [← mul_pow]; norm_num
      simp only [zpow_neg, zpow_natCast, hp, Nat.pow_eq]
      push_cast
      field_simp
    rw [← hv]
    exact rounds_nearestFloat _ _
  refine (hr.denotes_of_representable h.representable ?_).eq h rfl hq.ne'
  rw [← h.value_eq]
  exact abs_value_lt x

theorem toFloat_shortestOf {n p : ℕ} (h : Denotes x (n / 2 ^ p)) (h0 : 0 < n) :
    (shortestOf x n p).toFloat = x := by
  unfold shortestOf
  cases hs : (grids n p).findSome? fun grid =>
      (neighbours n (1 <<< p) grid).find? fun d => d.toFloat.toBits == x.toBits with
  | none => exact toFloat_exact h h0
  | some d =>
    obtain ⟨grid, -, hd⟩ := List.exists_of_findSome?_eq_some hs
    have hb : d.toFloat.toBits = x.toBits := by simpa using List.find?_some hd
    rw [Option.getD_some, ← Float.ofBits_toBits d.toFloat, hb, Float.ofBits_toBits]

theorem shortest_of_zero {s : UnpackedFloat.Sign} (h : x.toModel.unpack = .zero s) :
    shortest x = ⟨0, 0⟩ := by
  rw [shortest, h]

theorem exists_shortest_eq {s : UnpackedFloat.Sign} {m : ℕ} {e : ℤ} {hm : 0 < m}
    (hx : x.isFinite = true) (hu : x.toModel.unpack = .finite s m e hm)
    (hv : value x = Binary64.signed s (m * 2 ^ e)) :
    ∃ n p : ℕ, 0 < n ∧ Denotes x.abs (n / 2 ^ p) ∧ shortest x = shortestOf x.abs n p := by
  refine ⟨m <<< e.toNat, (-e).toNat, ?_, ?_, ?_⟩
  · simp only [Nat.shiftLeft_eq]
    positivity
  · have hq : ((m <<< e.toNat : ℕ) : ℚ) / 2 ^ (-e).toNat = m * 2 ^ e := by
      rw [cast_shiftLeft, mul_div_assoc, ← zpow_natCast, ← zpow_natCast, ← zpow_sub₀ (by norm_num)]
      congr 2
      omega
    rw [hq]
    refine ⟨by rw [isFinite_abs, hx], ?_⟩
    rw [value_abs, hv, abs_signed, abs_of_nonneg (by positivity)]
  · rw [shortest, hu]

theorem toFloat_shortest (hx : x.isFinite = true) : (shortest x).toFloat = x.abs := by
  obtain ⟨s, hu, -⟩ | ⟨s, m, e, hm, hu, -, -, hv⟩ := finite_cases hx
  · have h0 : (⟨0, 0⟩ : Decimal).toFloat = 0 := by rfl
    have ha : (0 : Float).toModel.unpack = .zero .positive := by rfl
    rw [shortest_of_zero hu, h0]
    apply unpack_injective
    simp only [ha, unpack_abs, hu, UnpackedFloat.abs]
  · obtain ⟨n, p, hn, hd, heq⟩ := exists_shortest_eq hx hu hv
    rw [heq]
    exact toFloat_shortestOf hd hn

end Decimal

namespace Display

/-- The sign a number is written with; none of the zeros has a minus sign. -/
def sign (x : Float) : UnpackedFloat.Sign :=
  if value x < 0 then .negative else .positive

theorem numberText_eq (hx : x.isFinite = true) :
    numberText x = signed (sign x) (Decimal.shortest x).text := by
  have h0 : (x == 0) = true ↔ value x = 0 := (denotes_value hx).beq_iff denotes_zero
  obtain ⟨s, hu, hv⟩ | ⟨s, m, e, hm, hu, -, -, hv⟩ := finite_cases hx
  · have hs : sign x = .positive := if_neg (by rw [hv]; exact lt_irrefl 0)
    have ht : (⟨0, 0⟩ : Decimal).text = "0".toList := by decide
    simp only [numberText, if_pos (h0.mpr hv), hs, Decimal.shortest, hu]
    exact ht.symm
  · have hpos : (0 : ℚ) < m * 2 ^ e := by positivity
    have hne : value x ≠ 0 := by
      simp only [hv, ← abs_pos, abs_signed]
      exact abs_pos.mpr hpos.ne'
    have hs : sign x = s := by
      cases s with
      | positive => exact if_neg (by rw [hv]; exact hpos.le.not_gt)
      | negative => exact if_pos (by rw [hv]; exact neg_lt_zero.mpr hpos)
    simp [numberText, if_neg (h0.not.mpr hne), exactText, hu, hs]

/-- A number that its text determines: it is finite and not the negative zero. -/
structure Legible (x : Float) : Prop where
  isFinite : x.isFinite = true
  eq_zero : value x = 0 → x = 0

theorem legible_zero : Legible 0 :=
  ⟨denotes_zero.isFinite, fun _ => rfl⟩

theorem legible_of_value_ne (hx : x.isFinite = true) (h : value x ≠ 0) : Legible x :=
  ⟨hx, fun h' => absurd h' h⟩

theorem Legible.abs_eq (h : Legible x) :
    x.abs = match sign x with
      | .positive => x
      | .negative => -x := by
  have hd := denotes_value h.isFinite
  rcases lt_trichotomy (value x) 0 with hv | hv | hv
  · simp only [sign, if_pos hv]
    exact hd.abs.eq hd.neg (abs_of_neg hv) (abs_pos.mpr hv.ne).ne'
  · obtain rfl := h.eq_zero hv
    rw [sign, if_neg (by rw [hv]; exact lt_irrefl 0)]
    rfl
  · simp only [sign, if_neg hv.not_gt]
    exact hd.abs.eq hd (abs_of_pos hv) (abs_pos.mpr hv.ne').ne'

theorem Legible.add_neg_zero (h : Legible x) : x + -0 = x := by
  by_cases hv : value x = 0
  · obtain rfl := h.eq_zero hv
    rfl
  · have hd := denotes_value h.isFinite
    have hr := hd.rounds_add denotes_zero.neg
    simp only [neg_zero, add_zero] at hr
    exact (hr.denotes_of_representable hd.representable (abs_value_lt x)).eq hd rfl hv

end Display

namespace Numeral

variable {n : ℕ}

/-- A decimal's text is no special value, has no sign, and is read whole. -/
theorem readFloat_text (d : Decimal) : readFloat d.text = .ok d.toFloat := by
  have hp := d.isPlain_text
  obtain ⟨c, later, h, hc⟩ := hp.head
  have hs : signedFloat? d.text = unsignedFloat? d.text := by
    rw [h]
    unfold signedFloat?
    split
    · next heq => simp_all
    · next heq => simp_all
    · rfl
  rw [readFloat, if_neg hp.ne_nil, hs, unsignedFloat?, d.unsignedDecimal?_text]
  rfl

theorem le_ofDigitChars (l : List Char) (n : ℕ) : n ≤ Nat.ofDigitChars 10 l n := by
  rw [Nat.ofDigitChars_eq_ofDigitChars_zero]
  calc n ≤ 10 ^ l.length * n := Nat.le_mul_of_pos_left _ (by positivity)
    _ ≤ 10 ^ l.length * n + Nat.ofDigitChars 10 l 0 := Nat.le_add_right _ _

/-- A value in range has all its prefixes in range. -/
theorem foldlM_appendDigit (hl : ∀ c ∈ l, c.isDigit = true) :
    Nat.ofDigitChars 10 l n < UInt64.size →
      l.foldlM appendDigit n = .ok (Nat.ofDigitChars 10 l n) := by
  induction l generalizing n with
  | nil => intro _; rfl
  | cons c l ih =>
    intro h
    have hc : c.isDigit = true := hl c (by simp)
    simp only [Nat.ofDigitChars_cons] at h ⊢
    have hlt : 10 * n + (c.toNat - '0'.toNat) < UInt64.size := (le_ofDigitChars _ _).trans_lt h
    have ha : appendDigit n c = .ok (10 * n + (c.toNat - '0'.toNat)) := by
      simp only [appendDigit, hc, Bool.not_true, Bool.false_eq_true, if_false, if_pos hlt]
    simp only [List.foldlM_cons, ha]
    exact ih (fun d hd => hl d (by simp [hd])) h

theorem readCount_toDigits (n : UInt64) : readCount (Nat.toDigits 10 n.toNat) = .ok n := by
  have hd (c) (hc : c ∈ Nat.toDigits 10 n.toNat) : c.isDigit = true := isDigit_of_mem_digits hc
  have hv : Nat.ofDigitChars 10 (Nat.toDigits 10 n.toNat) 0 = n.toNat :=
    Nat.ofDigitChars_ten_toDigits
  have hf := foldlM_appendDigit hd (hv.trans_lt n.toNat_lt)
  unfold readCount
  split
  · next heq => exact absurd heq Nat.toDigits_ne_nil
  · next heq => exact absurd (hd '+' (by simp [heq])) (by decide)
  · next heq => exact absurd (hd '+' (by simp [heq])) (by decide)
  · simp only [hf, hv]
    exact congrArg Except.ok UInt64.ofNat_toNat

end Numeral

end PolyEq
