import PolyEq.Proofs.Tolerance

/-! # Infinities and NaN

A sum, a difference or a product is finite only if both operands are, and a quotient only if its
dividend is. A NaN passes no comparison; any other float either reaches the tolerance or is
negligible.
-/

namespace PolyEq.Binary64

open Float.Model Float.Model.UnpackedFloat

variable {x y : Float} {q : ℚ}

theorem isFinite_ofModel_pack (u : UnpackedFloat) :
    (Float.ofModel (.pack u)).isFinite = (Float.Model.pack u).unpack.isFinite := rfl

theorem isNaN_ofModel_pack (u : UnpackedFloat) :
    (Float.ofModel (.pack u)).isNaN = (Float.Model.pack u).unpack.isNaN := rfl

theorem kinds (x : Float) : x.isFinite = true ∨ (∃ s, x.toModel.unpack = .infinity s) ∨
    x.toModel.unpack = .notANumber := by
  change x.toModel.unpack.isFinite = true ∨ _
  cases x.toModel.unpack <;> simp [UnpackedFloat.isFinite]

theorem isFinite_of_mul (h : (x * y).isFinite = true) :
    x.isFinite = true ∧ y.isFinite = true := by
  rw [mul_eq, isFinite_ofModel_pack] at h
  change x.toModel.unpack.isFinite = true ∧ y.toModel.unpack.isFinite = true
  cases hx : x.toModel.unpack <;> cases hy : y.toModel.unpack <;> rw [hx, hy] at h <;>
    simp_all [UnpackedFloat.mul, UnpackedFloat.isFinite]

theorem isFinite_of_add (h : (x + y).isFinite = true) :
    x.isFinite = true ∧ y.isFinite = true := by
  rw [add_eq, isFinite_ofModel_pack] at h
  change x.toModel.unpack.isFinite = true ∧ y.toModel.unpack.isFinite = true
  cases hx : x.toModel.unpack <;> cases hy : y.toModel.unpack <;> rw [hx, hy] at h
  case infinity.infinity s t =>
    simp only [UnpackedFloat.add] at h
    split at h <;> simp [UnpackedFloat.isFinite] at h
  all_goals simp_all [UnpackedFloat.add, UnpackedFloat.isFinite]

theorem isFinite_of_sub (h : (x - y).isFinite = true) :
    x.isFinite = true ∧ y.isFinite = true := by
  rw [float_sub_eq_add_neg] at h
  have h := isFinite_of_add h
  rwa [isFinite_neg] at h

theorem isFinite_of_div (h : (x / y).isFinite = true) : x.isFinite = true := by
  rw [div_eq, isFinite_ofModel_pack] at h
  change x.toModel.unpack.isFinite = true
  cases hx : x.toModel.unpack <;> cases hy : y.toModel.unpack <;> rw [hx, hy] at h <;>
    simp_all [UnpackedFloat.div, UnpackedFloat.isFinite]

theorem Rounds.isNaN (h : Rounds x q) : x.isNaN = false := by
  change x.toModel.unpack.isNaN = false
  cases h with
  | finite hx _ =>
    change x.toModel.unpack.isFinite = true at hx
    cases h : x.toModel.unpack <;> simp_all [UnpackedFloat.isFinite, UnpackedFloat.isNaN]
  | overflow _ h _ _ => rw [h]; rfl

theorem Rounds.value_eq (h : Rounds x q) (hx : x.isFinite = true) : value x = nearest q := by
  cases h with
  | finite _ h => exact h
  | overflow _ h _ _ =>
    change x.toModel.unpack.isFinite = true at hx
    rw [h] at hx
    cases hx

theorem isNaN_of_isFinite (hx : x.isFinite = true) : x.isNaN = false :=
  (rounds_self hx).isNaN

/-- An overflow in a sum gives an infinity, which stays one when finite numbers are added. -/
theorem isNaN_add (hx : x.isNaN = false) (hy : y.isFinite = true) : (x + y).isNaN = false := by
  rcases kinds x with h | ⟨s, h⟩ | h
  · exact (rounds_add h hy).isNaN
  · change y.toModel.unpack.isFinite = true at hy
    rw [add_eq, isNaN_ofModel_pack, h]
    cases hu : y.toModel.unpack <;>
      simp_all [UnpackedFloat.add, UnpackedFloat.isFinite, UnpackedFloat.isNaN]
  · change x.toModel.unpack.isNaN = false at hx
    rw [h] at hx
    cases hx

theorem isInf_iff : x.isInf = true ↔ ∃ s, x.toModel.unpack = .infinity s := by
  change x.toModel.unpack.isInf = true ↔ _
  cases x.toModel.unpack <;> simp [UnpackedFloat.isInf]

theorem not_isFinite_of_isInf (h : x.isInf = true) : x.isFinite = false := by
  obtain ⟨s, h⟩ := isInf_iff.mp h
  change x.toModel.unpack.isFinite = false
  rw [h]
  rfl

end PolyEq.Binary64

namespace PolyEq

open Binary64 Float.Model Float.Model.UnpackedFloat

variable {x : Float}

theorem unpack_abs_of_infinity {s : Sign} (h : x.toModel.unpack = .infinity s) :
    x.abs.toModel.unpack = .infinity .positive := by
  rw [unpack_abs, h]
  rfl

theorem epsilon_le_abs_of_infinity {s : Sign} (h : x.toModel.unpack = .infinity s) :
    epsilon ≤ x.abs ∧ epsilon < x.abs ∧ ¬ x.abs < epsilon := by
  rw [le_iff_compare, lt_iff_compare, lt_iff_compare, unpack_abs_of_infinity h, unpack_epsilon]
  exact ⟨rfl, rfl, by decide⟩

theorem not_epsilon_le_abs_of_nan (h : x.toModel.unpack = .notANumber) :
    ¬ epsilon ≤ x.abs ∧ ¬ epsilon < x.abs := by
  have ha : x.abs.toModel.unpack = .notANumber := by
    rw [unpack_abs, h]
    rfl
  rw [le_iff_compare, lt_iff_compare, ha, unpack_epsilon]
  exact ⟨by decide, by decide⟩

theorem isFinite_of_isNegligible (h : isNegligible x = true) : x.isFinite = true := by
  rw [isNegligible, decide_eq_true_iff] at h
  rcases kinds x with hx | ⟨s, hx⟩ | hx
  · exact hx
  · exact absurd h (epsilon_le_abs_of_infinity hx).2.2
  · have ha : x.abs.toModel.unpack = .notANumber := by
      rw [unpack_abs, hx]
      rfl
    rw [lt_iff_compare, ha, unpack_epsilon] at h
    exact absurd h (by decide)

theorem isNegligible_eq_false_iff (hx : x.isNaN = false) :
    isNegligible x = false ↔ epsilon ≤ x.abs := by
  rw [isNegligible, decide_eq_false_iff_not]
  rcases kinds x with h | ⟨s, h⟩ | h
  · have ha := (denotes_value h).abs
    rw [ha.lt_iff denotes_epsilon, denotes_epsilon.le_iff ha, not_lt]
  · obtain ⟨hle, -, hlt⟩ := epsilon_le_abs_of_infinity h
    exact iff_of_true hlt hle
  · change x.toModel.unpack.isNaN = false at hx
    rw [h] at hx
    cases hx

theorem epsilon_le_abs_iff : epsilon ≤ x.abs ↔ epsilon < x.abs ∨ x.abs = epsilon := by
  rcases kinds x with h | ⟨s, h⟩ | h
  · have ha := (denotes_value h).abs
    rw [denotes_epsilon.le_iff ha, denotes_epsilon.lt_iff ha, le_iff_lt_or_eq]
    refine or_congr_right ⟨fun h => ?_, fun h => ?_⟩
    · exact ha.eq denotes_epsilon h.symm (h ▸ tolerance_pos.ne')
    · rw [← denotes_epsilon.value_eq, ← ha.value_eq, h]
  · obtain ⟨hle, hlt, -⟩ := epsilon_le_abs_of_infinity h
    exact iff_of_true hle (.inl hlt)
  · obtain ⟨hle, hlt⟩ := not_epsilon_le_abs_of_nan h
    refine iff_of_false hle (not_or.mpr ⟨hlt, fun he => hle ?_⟩)
    rw [he, denotes_epsilon.le_iff denotes_epsilon]

end PolyEq
