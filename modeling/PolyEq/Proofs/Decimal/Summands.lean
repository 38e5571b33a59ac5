import PolyEq.Proofs.Binary64.Opposite
import PolyEq.Proofs.Equation.Shown
import PolyEq.Proofs.Text.Folding

/-! # Numbers as summands

Integers, fractions and finite floats are written with no sign but a minus sign at the beginning.
Without it are the texts of those that are not negative, also after they were rounded for display.
-/

namespace PolyEq

open Binary64

variable {l : List Char} {x y : Float} {n : ℤ} {q : ℚ}

theorem IsMagnitude.isSummand (h : IsMagnitude l) : IsSummand l :=
  ⟨.positive, l, h, rfl⟩

theorem isMagnitude_digits (n : ℕ) : IsMagnitude (Nat.toDigits 10 n) :=
  (isPlain_of_digits Nat.toDigits_ne_nil fun _ hc => isDigit_of_mem_digits hc).isMagnitude

theorem isSummand_integerText (n : ℤ) : IsSummand (integerText n) := by
  unfold integerText
  split_ifs
  · exact ⟨.negative, _, isMagnitude_digits _, rfl⟩
  · exact (isMagnitude_digits _).isSummand

theorem isMagnitude_integerText (h : 0 ≤ n) : IsMagnitude (integerText n) := by
  rw [integerText, if_neg (not_lt.mpr h)]
  exact isMagnitude_digits _

theorem isSummand_toString (n : ℤ) : IsSummand (toString n).toList :=
  (toList_toString_int n).symm ▸ isSummand_integerText n

namespace Fraction

theorem denominator_notSign (d : ℕ) : (∀ c ∈ '/' :: Nat.toDigits 10 d, c ≠ '+' ∧ c ≠ '-') ∧
    ∀ c ∈ ('/' :: Nat.toDigits 10 d).getLast?, c ≠ ' ' := by
  have hd := isMagnitude_digits d
  refine ⟨List.forall_mem_cons.mpr ⟨by decide, hd.notSign⟩, ?_⟩
  exact forall_getLast?_cons hd.last hd.ne_nil

theorem isSummand_text (q : ℚ) : IsSummand (text q) := by
  unfold text
  split_ifs
  · exact isSummand_integerText _
  · exact (isSummand_integerText _).append (denominator_notSign _).1 (denominator_notSign _).2

theorem isMagnitude_text (h : 0 ≤ q) : IsMagnitude (text q) := by
  have hnum := isMagnitude_integerText (Rat.num_nonneg.mpr h)
  unfold text
  split_ifs
  · exact hnum
  · exact hnum.append (denominator_notSign _).1 (denominator_notSign _).2

end Fraction

namespace Rounding

theorem nearestInteger_nonneg (hx : 0 ≤ value x) : 0 ≤ nearestInteger x := by
  have h := (abs_le.mp (abs_nearestInteger_sub_le x)).1
  have hlt : ((-1 : ℤ) : ℚ) < nearestInteger x := by push_cast; linarith
  have : -1 < nearestInteger x := by exact_mod_cast hlt
  omega

end Rounding

namespace Binary64

theorem Rounds.value_nonneg (h : Rounds x q) (hq : 0 ≤ q) : 0 ≤ value x := by
  cases hx : x.isFinite with
  | true => exact (h.value_eq hx).symm ▸ nearest_nonneg hq
  | false => exact (value_of_not_isFinite hx).ge

theorem value_mul_nonneg (hx : 0 ≤ value x) (hy : 0 ≤ value y) : 0 ≤ value (x * y) := by
  cases h : (x * y).isFinite with
  | true =>
    obtain ⟨hx', hy'⟩ := isFinite_of_mul h
    exact (rounds_mul hx' hy').value_nonneg (mul_nonneg hx hy)
  | false => exact (value_of_not_isFinite h).ge

theorem value_div_nonneg (hx : 0 ≤ value x) (hy : Denotes y q) (hq : 0 < q) :
    0 ≤ value (x / y) := by
  cases h : (x / y).isFinite with
  | true =>
    have hx' := denotes_value (isFinite_of_div h)
    exact (hx'.rounds_div hy hq.ne').value_nonneg (div_nonneg hx hq.le)
  | false => exact (value_of_not_isFinite h).ge

end Binary64

namespace Rounding

theorem value_toIntegral_nonneg (hx : 0 ≤ value x) : 0 ≤ value (toIntegral x) := by
  unfold toIntegral
  split
  · exact (rounds_ofInteger _).value_nonneg (by positivity)
  · next hm hu =>
    have hneg : value x < 0 := by
      rw [value, hu]
      exact neg_lt_zero.mpr (by positivity)
    exact absurd hx hneg.not_ge
  · exact hx

theorem value_toDisplay_nonneg (hx : 0 ≤ value x) : 0 ≤ value (toDisplay x) := by
  have hs : 0 ≤ value (ofInteger (tenPow decimalPlaces)) := by
    rw [denotes_scale.value_eq]
    norm_num
  exact value_div_nonneg (value_toIntegral_nonneg (value_mul_nonneg hx hs)) denotes_scale
    (by norm_num)

end Rounding

namespace Display

theorem isSummand_numberText (hx : x.isFinite = true) : IsSummand (numberText x) :=
  ⟨_, _, (Decimal.isPlain_text _).isMagnitude, numberText_eq hx⟩

theorem isMagnitude_numberText (hx : x.isFinite = true) (h : 0 ≤ value x) :
    IsMagnitude (numberText x) := by
  have hsign : sign x = .positive := if_neg (not_lt.mpr h)
  rw [numberText_eq hx, hsign]
  exact (Decimal.isPlain_text _).isMagnitude

theorem isSummand_collapsedText (hx : x.isFinite = true) : IsSummand (collapsedText x) := by
  unfold collapsedText
  split
  · exact isSummand_integerText _
  · exact isSummand_numberText hx

theorem isMagnitude_collapsedText (hx : x.isFinite = true) (h : 0 ≤ value x) :
    IsMagnitude (collapsedText x) := by
  unfold collapsedText
  split
  · next n hn =>
    unfold toInteger? at hn
    split_ifs at hn
    cases hn
    exact isMagnitude_integerText (Rounding.nearestInteger_nonneg h)
  · exact isMagnitude_numberText hx h

theorem isSummand_number (hx : x.isFinite = true) : IsSummand (number x).toList := by
  simpa only [number, String.toList_ofList] using isSummand_numberText hx

theorem isSummand_collapsed (hx : x.isFinite = true) : IsSummand (collapsed x).toList := by
  simpa only [collapsed, String.toList_ofList] using isSummand_collapsedText hx

theorem isSummand_approximate (hx : (Rounding.toDisplay x).isFinite = true) :
    IsSummand (approximate x).toList := by
  simpa only [approximate, approximateText, String.toList_ofList] using isSummand_collapsedText hx

theorem isMagnitude_approximate (hx : (Rounding.toDisplay x).isFinite = true) (h : 0 ≤ value x) :
    IsMagnitude (approximate x).toList := by
  simpa only [approximate, approximateText, String.toList_ofList] using
    isMagnitude_collapsedText hx (Rounding.value_toDisplay_nonneg h)

end Display

theorem Fraction.isSummand_display (q : ℚ) : IsSummand (Fraction.display q).toList := by
  simpa only [Fraction.display, String.toList_ofList] using Fraction.isSummand_text q

theorem Fraction.isMagnitude_display (h : 0 ≤ q) : IsMagnitude (Fraction.display q).toList := by
  simpa only [Fraction.display, String.toList_ofList] using Fraction.isMagnitude_text h

end PolyEq
