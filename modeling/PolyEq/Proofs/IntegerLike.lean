import PolyEq.Proofs.Binary64.Special

/-! # Floats that stand for integers

A float that stands for an integer is finite and in the exact range, and so is the integer. It is
not zero if the float reaches the tolerance. The opposite float stands for the opposite integer.
Nothing is lost when the float is rounded to the integer and converted to a word.
-/

namespace PolyEq

open Binary64 Float.Model.UnpackedFloat

variable {x : Float} {m n : ℤ} {q : ℚ}

/-- The float is finite, in the exact range, and closer to the integer than the tolerance. -/
structure StandsFor (x : Float) (n : ℤ) : Prop where
  isFinite : x.isFinite = true
  abs_le : |value x| ≤ 2 ^ 53
  abs_sub_lt : |value x - n| < value epsilon

theorem isIntegerLike_of_toInteger? (h : toInteger? x = some n) : isIntegerLike x = true := by
  unfold toInteger? at h
  split_ifs at h with hx
  exact hx

theorem isSome_toInteger? (x : Float) : (toInteger? x).isSome = isIntegerLike x := by
  unfold toInteger?
  split_ifs with h
  · exact h.symm
  · exact (Bool.eq_false_iff.mpr h).symm

theorem isFinite_of_toInteger? (h : toInteger? x = some n) : x.isFinite = true := by
  have hx := isIntegerLike_of_toInteger? h
  simp only [isIntegerLike, Bool.and_eq_true] at hx
  exact hx.1.1

theorem toInteger?_iff_standsFor : toInteger? x = some n ↔ StandsFor x n := by
  constructor
  · intro h
    have hx := isFinite_of_toInteger? h
    obtain ⟨hle, hlt⟩ := (toInteger?_eq_some_iff (denotes_value hx)).mp h
    exact ⟨hx, hle, by rwa [denotes_epsilon.value_eq, abs_sub_comm]⟩
  · rintro ⟨hx, hle, hlt⟩
    rw [denotes_epsilon.value_eq, abs_sub_comm] at hlt
    exact (toInteger?_eq_some_iff (denotes_value hx)).mpr ⟨hle, hlt⟩

theorem StandsFor.eq_of_abs_sub_lt (h : StandsFor x n) (hm : |value x - m| < value epsilon) :
    m = n := by
  have hn := h.abs_sub_lt
  have ht := tolerance_lt
  rw [denotes_epsilon.value_eq] at hm hn
  apply eq_of_abs_sub_lt_one
  calc |(m : ℚ) - n| ≤ |m - value x| + |value x - n| := abs_sub_le _ _ _
    _ < 1 := by rw [abs_sub_comm (m : ℚ)]; norm_num at ht; linarith

theorem abs_le_of_toInteger? (h : toInteger? x = some n) : |n| ≤ 2 ^ 53 := by
  obtain ⟨hq, hlt⟩ := (toInteger?_eq_some_iff (denotes_value (isFinite_of_toInteger? h))).mp h
  have ht := tolerance_lt
  have hle : |(n : ℚ)| < 2 ^ 53 + 1 := by
    have htri := abs_sub_abs_le_abs_sub (n : ℚ) (value x)
    norm_num at ht hq ⊢
    linarith
  have hle' : |n| < 2 ^ 53 + 1 := by exact_mod_cast hle
  omega

theorem ne_zero_of_toInteger? (hx : epsilon ≤ x.abs) (h : toInteger? x = some n) : n ≠ 0 := by
  rintro rfl
  have hd := denotes_value (isFinite_of_toInteger? h)
  have hlt := ((toInteger?_eq_some_iff hd).mp h).2
  rw [Int.cast_zero, zero_sub, abs_neg] at hlt
  exact absurd hlt (not_lt.mpr ((denotes_epsilon.le_iff hd.abs).mp hx))

theorem denotes_toIntegral_of_toInteger? (h : toInteger? x = some n) :
    Denotes (Rounding.toIntegral x) n := by
  have hd := Rounding.denotes_toIntegral (isFinite_of_toInteger? h)
  unfold toInteger? at h
  split_ifs at h
  cases h
  exact hd

/-- The exact range is far from the limits of a word, so the conversion does not clamp. -/
theorem toInt64_of_toInteger? (h : toInteger? x = some n) :
    (Rounding.toIntegral x).toModel.toInt64.toInt = n := by
  have hle := abs_le.mp (abs_le_of_toInteger? h)
  have hmin : Int64.minValue.toInt = -2 ^ 63 := rfl
  have hmax : Int64.maxValue.toInt = 2 ^ 63 - 1 := rfl
  exact (denotes_toIntegral_of_toInteger? h).toInt_toInt64 (by omega) (by omega)

theorem nearestInteger_neg (x : Float) :
    Rounding.nearestInteger (-x) = -Rounding.nearestInteger x := by
  unfold Rounding.nearestInteger
  rw [unpack_neg]
  cases x.toModel.unpack with
  | finite s m e hm =>
    cases s
    · exact (neg_neg _).symm
    · rfl
  | _ => rfl

theorem isIntegerLike_neg (x : Float) : isIntegerLike (-x) = isIntegerLike x := by
  cases hx : x.isFinite with
  | false => simp [isIntegerLike, hx]
  | true =>
    have hd := denotes_value hx
    rw [Bool.eq_iff_iff, isIntegerLike_iff hd, isIntegerLike_iff hd.neg, nearestInteger_neg,
      abs_neg, Int.cast_neg, ← neg_sub', abs_neg]

theorem toInteger?_neg (x : Float) : toInteger? (-x) = (toInteger? x).map Neg.neg := by
  unfold toInteger?
  rw [isIntegerLike_neg, nearestInteger_neg]
  split_ifs <;> rfl

theorem toInteger?_neg_eq_some_iff : toInteger? (-x) = some (-n) ↔ toInteger? x = some n := by
  rw [toInteger?_neg, ← Option.map_some, (Option.map_injective neg_injective).eq_iff]

/-- A float stands for an integer exactly if it is finite, in the exact range and closer to it than
the tolerance. Then there is no other such integer, and rounding the float and converting it to a
word are exact. Opposite floats stand for opposite integers, and what reaches the tolerance does
not stand for zero. -/
theorem toInteger?_exact (x : Float) (n : ℤ) :
    (toInteger? x = some n ↔ StandsFor x n) ∧
    (toInteger? x = some n → |n| ≤ 2 ^ 53 ∧ (∀ m : ℤ, |value x - m| < value epsilon → m = n) ∧
      Denotes (Rounding.toIntegral x) n ∧ (Rounding.toIntegral x).toModel.toInt64.toInt = n) ∧
    (toInteger? (-x) = some (-n) ↔ toInteger? x = some n) ∧
    (epsilon ≤ x.abs → toInteger? x ≠ some 0) := by
  refine ⟨toInteger?_iff_standsFor, fun h => ?_, toInteger?_neg_eq_some_iff, fun hx h => ?_⟩
  · exact ⟨abs_le_of_toInteger? h, fun m => (toInteger?_iff_standsFor.mp h).eq_of_abs_sub_lt,
      denotes_toIntegral_of_toInteger? h, toInt64_of_toInteger? h⟩
  · exact ne_zero_of_toInteger? hx h rfl

/-- A float a little above `-2` is rounded down to it. -/
theorem toInteger?_exact_above_neg_two : ∃ x : Float, x = -1.999999999999 ∧
    toInteger? x = some (-2) ∧ StandsFor x (-2) ∧ toInteger? (-x) = some (-(-2)) ∧
    (∀ m : ℤ, |value x - m| < value epsilon → m = -2) ∧
    (Rounding.toIntegral x).toModel.toInt64.toInt = -2 ∧
    epsilon ≤ x.abs ∧ toInteger? x ≠ some 0 := by
  have hx : toInteger? (-1.999999999999) = some (-2) := by decide +kernel
  have hlarge : epsilon ≤ (-1.999999999999 : Float).abs := by decide +kernel
  obtain ⟨hstands, hexact, hneg, hzero⟩ := toInteger?_exact (-1.999999999999) (-2)
  obtain ⟨-, hunique, -, hword⟩ := hexact hx
  exact ⟨_, rfl, hx, hstands.mp hx, hneg.mpr hx, hunique, hword, hlarge, hzero hlarge⟩

end PolyEq
