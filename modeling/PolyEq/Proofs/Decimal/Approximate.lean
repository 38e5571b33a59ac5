import PolyEq.Proofs.Decimal.Shortest
import PolyEq.Proofs.Decimal.Summands
import PolyEq.Proofs.Rounding

/-! # Numbers shown approximately

A number is shown approximately by a plain decimal with at most six places that is close to it,
unless scaling it before the rounding overflows. Then an infinity is shown.
-/

namespace PolyEq

open Binary64 Float.Model

/-- A decimal in plain notation: a sign, digits, and perhaps a point with more digits. -/
structure PlainNumber where
  sign : UnpackedFloat.Sign
  whole : List Char
  fraction : List Char
  whole_ne_nil : whole ≠ []
  isDigit : ∀ c ∈ whole ++ fraction, c.isDigit = true

variable {x : Float} {q : ℚ} {n : ℤ} {s : UnpackedFloat.Sign} {d : Decimal}

namespace Decimal

/-- The digits after the point, none if the decimal is written without one. -/
def fraction (d : Decimal) : List Char :=
  if d.places = 0 then [] else d.fractionDigits

theorem isDigit_of_mem_fraction {c : Char} (h : c ∈ d.fraction) : c.isDigit = true := by
  unfold fraction at h
  split_ifs at h
  · exact absurd h List.not_mem_nil
  · exact isDigit_of_mem_fractionDigits h

@[simp] theorem length_fraction (d : Decimal) : d.fraction.length = d.places := by
  unfold fraction
  split_ifs with h
  · exact h.symm
  · exact length_fractionDigits h

theorem text_eq (d : Decimal) : d.text =
    Nat.toDigits 10 (d.digits / tenPow d.places) ++
      if d.fraction = [] then [] else '.' :: d.fraction := by
  by_cases h : d.places = 0
  · simp [text, fraction, h]
  · have hne : d.fraction ≠ [] := by
      rw [← List.length_pos_iff, length_fraction]
      omega
    rw [if_neg hne, fraction, if_neg h, text_of_places_ne h]

theorem ofDigitChars_fraction (d : Decimal) :
    Nat.ofDigitChars 10 (Nat.toDigits 10 (d.digits / tenPow d.places) ++ d.fraction) 0 =
      d.digits := by
  rw [Nat.ofDigitChars_append, Nat.ofDigitChars_ten_toDigits]
  unfold fraction
  split_ifs with h
  · rw [h]
    exact Nat.div_one _
  · rw [ofDigitChars_fractionDigits _ h, Nat.div_add_mod']

theorem toRat_eq_zero_of_text (h : d.text = ['0']) : d.toRat = 0 := by
  have hread := Decimal.ofDigitChars_fraction d
  have hlength := congrArg List.length h
  rw [text_eq] at h hlength
  have hwhole := List.length_pos_iff.mpr
    (Nat.toDigits_ne_nil (b := 10) (n := d.digits / tenPow d.places))
  split_ifs at h hlength with hf
  · rw [hf, h] at hread
    rw [toRat, ← hread]
    norm_num [Nat.ofDigitChars]
  · simp only [List.length_append, List.length_cons, List.length_nil] at hlength
    omega

end Decimal

namespace PlainNumber

/-- The point is written before digits only. -/
def text (p : PlainNumber) : List Char :=
  Display.signed p.sign (p.whole ++ if p.fraction = [] then [] else '.' :: p.fraction)

def toRat (p : PlainNumber) : ℚ :=
  Binary64.signed p.sign (Nat.ofDigitChars 10 (p.whole ++ p.fraction) 0 / 10 ^ p.fraction.length)

def ofDecimal (s : UnpackedFloat.Sign) (d : Decimal) : PlainNumber where
  sign := s
  whole := Nat.toDigits 10 (d.digits / tenPow d.places)
  fraction := d.fraction
  whole_ne_nil := Nat.toDigits_ne_nil
  isDigit _ hc := (List.mem_append.mp hc).elim isDigit_of_mem_digits d.isDigit_of_mem_fraction

theorem text_ofDecimal (s : UnpackedFloat.Sign) (d : Decimal) :
    (ofDecimal s d).text = Display.signed s d.text := by
  rw [d.text_eq]
  rfl

theorem toRat_ofDecimal (s : UnpackedFloat.Sign) (d : Decimal) :
    (ofDecimal s d).toRat = Binary64.signed s d.toRat := by
  rw [toRat, ofDecimal, d.ofDigitChars_fraction, d.length_fraction, Decimal.toRat]

theorem letterless_text (p : PlainNumber) : Letterless p.text := by
  have hdigit (c) (hc : c ∈ p.whole ++ p.fraction) : c.isAlpha = false :=
    isAlpha_of_isDigit (p.isDigit c hc)
  apply letterless_signed
  refine ⟨by simp [p.whole_ne_nil], fun c hc => ?_⟩
  rcases List.mem_append.mp hc with hc | hc
  · exact hdigit c (List.mem_append_left _ hc)
  · split_ifs at hc
    · exact absurd hc List.not_mem_nil
    · rcases List.mem_cons.mp hc with rfl | hc
      · decide
      · exact hdigit c (List.mem_append_right _ hc)

end PlainNumber

theorem Decimal.nearest_toRat_shortest (hx : x.isFinite = true) :
    nearest (shortest x).toRat = |value x| := by
  have hr := (shortest x).rounds_toFloat
  rw [toFloat_shortest hx] at hr
  rw [← hr.value_eq ((isFinite_abs x).trans hx), value_abs]

namespace Display

/-- The text is a plain decimal with at most six places, close to the number, and not `-0`. -/
structure ShowsNear (text : List Char) (q : ℚ) : Prop where
  exists_plain : ∃ p : PlainNumber, p.text = text ∧ p.fraction.length ≤ 6 ∧
    |p.toRat - q| ≤ max 1 |q| / 10 ^ 6
  ne_negative_zero : text ≠ "-0".toList

theorem showsNear_signed (hplaces : d.places ≤ 6)
    (hq : |Binary64.signed s d.toRat - q| ≤ max 1 |q| / 10 ^ 6)
    (hs : s = .negative → d.toRat ≠ 0) : ShowsNear (signed s d.text) q where
  exists_plain := by
    refine ⟨.ofDecimal s d, PlainNumber.text_ofDecimal s d, ?_, ?_⟩
    · exact d.length_fraction.trans_le hplaces
    · rwa [PlainNumber.toRat_ofDecimal]
  ne_negative_zero := by
    cases s with
    | positive => exact (Decimal.isPlain_text d).isMagnitude.ne_minus _
    | negative =>
      intro h
      exact hs rfl (Decimal.toRat_eq_zero_of_text (List.cons.inj h).2)

def integerSign (n : ℤ) : UnpackedFloat.Sign :=
  if n < 0 then .negative else .positive

theorem integerText_eq (n : ℤ) :
    integerText n = signed (integerSign n) (⟨n.natAbs, 0⟩ : Decimal).text := by
  rw [integerText, integerSign, Decimal.text_of_places_eq rfl]
  split_ifs <;> rfl

theorem signed_natAbs (n : ℤ) :
    Binary64.signed (integerSign n) (⟨n.natAbs, 0⟩ : Decimal).toRat = n := by
  have hcast : ((⟨n.natAbs, 0⟩ : Decimal).toRat) = |(n : ℚ)| := by
    rw [Decimal.toRat, pow_zero, div_one, Nat.cast_natAbs, Int.cast_abs]
  rw [hcast, integerSign]
  split_ifs with h
  · rw [Binary64.signed, abs_of_neg (by exact_mod_cast h), neg_neg]
  · exact abs_of_nonneg (by exact_mod_cast not_lt.mp h)

theorem showsNear_integerText (h : |n - q| ≤ max 1 |q| / 10 ^ 6) :
    ShowsNear (integerText n) q := by
  rw [integerText_eq]
  apply showsNear_signed (Nat.zero_le 6)
  · rwa [signed_natAbs]
  · intro hs
    unfold integerSign at hs
    split_ifs at hs with hn
    rw [Decimal.toRat, pow_zero, div_one, Nat.cast_ne_zero]
    exact Int.natAbs_ne_zero.mpr hn.ne

theorem signed_sign (x : Float) : Binary64.signed (sign x) |value x| = value x := by
  unfold sign
  split_ifs with h
  · rw [Binary64.signed, abs_of_neg h, neg_neg]
  · exact abs_of_nonneg (not_lt.mp h)

theorem abs_signed_sub (s : UnpackedFloat.Sign) (q r : ℚ) :
    |Binary64.signed s q - Binary64.signed s r| = |q - r| := by
  cases s with
  | positive => rfl
  | negative =>
    rw [Binary64.signed, Binary64.signed, neg_sub_neg]
    exact abs_sub_comm r q

/-- The number written in full misses the float by the error of one rounding. -/
theorem abs_signed_shortest_sub_le (hx : x.isFinite = true) :
    |Binary64.signed (sign x) (Decimal.shortest x).toRat - value x| ≤
      |value x| / 2 ^ 52 + 2 * underflow := by
  have hnear := Decimal.nearest_toRat_shortest hx
  generalize (Decimal.shortest x).toRat = w at hnear
  have herr := abs_nearest_sub_le_add w
  have hsize := abs_sub_abs_le_abs_sub w (nearest w)
  have hu := underflow_pos
  have hv := abs_nonneg (value x)
  have hsub : |Binary64.signed (sign x) w - value x| = |w - nearest w| := by
    rw [← abs_signed_sub (sign x) w, hnear, signed_sign]
  rw [abs_sub_comm] at herr
  rw [hnear, abs_abs] at hsize
  rw [hsub]
  rw [hnear] at herr ⊢
  linarith

theorem showsNear_numberText (hx : Denotes x (nearest (n / 10 ^ 6)))
    (h : |value x - q| ≤ 6 / 10 * (max 1 |q| / 10 ^ 6)) : ShowsNear (numberText x) q := by
  rw [numberText_eq hx.isFinite]
  apply showsNear_signed
  · -- six places read back, so the shortest decimal has no more
    refine Decimal.places_shortest_le (N := n.natAbs) hx.isFinite ?_
    rw [hx.value_eq, abs_nearest, abs_div, Nat.cast_natAbs, Int.cast_abs]
    norm_num [div_eq_mul_inv]
  · have hshort := abs_signed_shortest_sub_le hx.isFinite
    have htri := abs_sub_le (Binary64.signed (sign x) (Decimal.shortest x).toRat) (value x) q
    have hsize := abs_sub_abs_le_abs_sub (value x) q
    have hu := Rounding.underflow_le
    have hone : 1 ≤ max 1 |q| := le_max_left _ _
    have hq : |q| ≤ max 1 |q| := le_max_right _ _
    norm_num at hshort hu h ⊢
    linarith
  · intro hs hzero
    have hv : value x < 0 := by
      unfold sign at hs
      split_ifs at hs with hv
      exact hv
    have hnear := Decimal.nearest_toRat_shortest hx.isFinite
    rw [hzero, nearest_zero] at hnear
    exact absurd hnear (abs_pos.mpr hv.ne).ne

theorem showsNear_collapsedText (hx : Denotes x (nearest (n / 10 ^ 6)))
    (h : |value x - q| ≤ 6 / 10 * (max 1 |q| / 10 ^ 6)) : ShowsNear (collapsedText x) q := by
  unfold collapsedText
  cases hi : toInteger? x with
  | none => exact showsNear_numberText hx h
  | some m =>
    apply showsNear_integerText
    have hclose := ((toInteger?_eq_some_iff (denotes_value hx.isFinite)).mp hi).2
    have ht := tolerance_lt
    have hone : 1 ≤ max 1 |q| := le_max_left _ _
    have htri := abs_sub_le (m : ℚ) (value x) q
    norm_num at ht h ⊢
    linarith

theorem collapsedText_of_infinity (h : x.toModel.unpack = .infinity s) :
    collapsedText x = signed s "inf".toList := by
  unfold collapsedText
  cases hi : toInteger? x with
  | none => exact numberText_of_infinity h
  | some m =>
    have hf := isFinite_of_toInteger? hi
    rw [not_isFinite_of_isInf (isInf_iff.mpr ⟨s, h⟩)] at hf
    cases hf

theorem not_showsNear_infinity (s : UnpackedFloat.Sign) (q : ℚ) :
    ¬ ShowsNear (signed s "inf".toList) q := by
  rintro ⟨⟨p, hp, -⟩, -⟩
  have hmem : 'i' ∈ p.text := by
    rw [hp]
    cases s <;> simp [signed]
  exact absurd (p.letterless_text.chars 'i' hmem) (by decide)

/-- Exactly the numbers whose scaling does not overflow are shown to the display precision. -/
theorem showsNear_approximate_iff (hx : x.isFinite = true) :
    ShowsNear (approximate x).toList (value x) ↔ |value x * 10 ^ 6| < overflowBound := by
  rw [approximate, String.toList_ofList, approximateText]
  constructor
  · intro h
    by_contra hle
    obtain ⟨s, hs⟩ := Rounding.exists_toDisplay_infinity (denotes_value hx) (not_lt.mp hle)
    rw [collapsedText_of_infinity hs] at h
    exact not_showsNear_infinity s _ h
  · intro h
    obtain ⟨n, hn, hd⟩ := Rounding.exists_denotes_toDisplay (denotes_value hx) h
    apply showsNear_collapsedText hd
    rw [hd.value_eq]
    exact Rounding.abs_nearest_div_sub_le hn

/-- A small negative number is shown as `0`. -/
theorem showsNear_approximate_tiny : ∃ x : Float, x = -0.0000001 ∧ approximate x = "0" ∧
    ShowsNear (approximate x).toList (value x) := by
  have hx : (-0.0000001 : Float).isFinite = true := by decide +kernel
  refine ⟨_, rfl, by decide +kernel, (showsNear_approximate_iff hx).mpr ?_⟩
  have hle : |value (-0.0000001)| ≤ 1 :=
    ((denotes_value hx).abs.le_iff denotes_one).mp (by decide +kernel)
  calc |value (-0.0000001) * 10 ^ 6| = |value (-0.0000001)| * 10 ^ 6 := by
        rw [abs_mul, abs_of_pos (show (0 : ℚ) < 10 ^ 6 by norm_num)]
    _ ≤ 2 ^ 20 := by linarith
    _ < overflowBound := two_pow_lt_overflowBound (by norm_num)

/-- A large number is shown as an infinity. -/
theorem not_showsNear_approximate_large : ∃ x : Float, x = 1e303 ∧ x.isFinite = true ∧
    approximate x = "inf" ∧ ¬ ShowsNear (approximate x).toList (value x) := by
  have hinf : approximate 1e303 = "inf" := by decide +kernel
  refine ⟨_, rfl, by decide +kernel, hinf, ?_⟩
  rw [hinf]
  exact not_showsNear_infinity .positive _

end Display

end PolyEq
