import PolyEq.Proofs.Binary64.Shifting

/-! # The rational value of a float

A finite float denotes a rational. Two finite floats with one value are equal unless both are
zeros, and floats are compared as their values are.
-/

namespace PolyEq.Binary64

open Float.Model Float.Model.UnpackedFloat

def signed (s : Sign) (q : ℚ) : ℚ :=
  match s with
  | .negative => -q
  | .positive => q

def unpackedValue : UnpackedFloat → ℚ
  | .finite s m e _ => signed s (m * 2 ^ e)
  | _ => 0

/-- The rational that a float denotes, zero if it is not finite. -/
def value (x : Float) : ℚ :=
  unpackedValue x.toModel.unpack

variable {x y : Float} {u v : UnpackedFloat} {s : Sign} {q : ℚ} {m : ℕ} {e : ℤ} {hm : 0 < m}

@[simp] theorem signed_zero (s : Sign) : signed s 0 = 0 := by
  cases s <;> simp [signed]

@[simp] theorem abs_signed (s : Sign) (q : ℚ) : |signed s q| = |q| := by
  cases s <;> simp [signed]

theorem nearest_signed (s : Sign) (q : ℚ) : nearest (signed s q) = signed s (nearest q) := by
  cases s <;> simp [signed, nearest_neg]

theorem signed_neg (s : Sign) (q : ℚ) : signed (-s) q = -signed s q := by
  cases s
  · exact (neg_neg q).symm
  · rfl

theorem apply_cast (s : Sign) (n : ℤ) : ((s.apply n : ℤ) : ℚ) = signed s n := by
  cases s <;> simp [Sign.apply, signed]

theorem unpack_toModel_ofModel (u : UnpackedFloat) :
    (Float.ofModel (.pack u)).toModel.unpack = (Float.Model.pack u).unpack := rfl

theorem unpack_injective : Function.Injective fun x : Float => x.toModel.unpack := by
  rintro ⟨⟨b, hb⟩⟩ ⟨⟨c, hc⟩⟩ h
  have hbc := (unpack_inj_of_valid hb hc).mp h
  cases UInt64.toBitVec_inj.mp hbc
  rfl

theorem isFinite_iff : x.isFinite = true ↔ (∃ s, x.toModel.unpack = .zero s) ∨
    ∃ s m e hm, x.toModel.unpack = .finite s m e hm ∧ CanonicalPair m e ∧ e ≤ 971 := by
  have hc := canonical_unpack x.toModel
  change x.toModel.unpack.isFinite = true ↔ _
  cases h : x.toModel.unpack <;> simp_all [UnpackedFloat.isFinite, Canonical]

theorem CanonicalPair.representable (h : CanonicalPair m e) : Representable (m * 2 ^ e) :=
  ⟨m, e, by rw [abs_of_nonneg (by positivity)]; exact_mod_cast h.1.le, h.2.1, by push_cast; rfl⟩

theorem CanonicalPair.lt_of_le (h : CanonicalPair m e) (he : e ≤ 971) :
    (m : ℚ) * 2 ^ e < 2 ^ (1024 : ℤ) := by
  have h₁ : (m : ℚ) < 2 ^ (53 : ℤ) := by exact_mod_cast h.1
  calc (m : ℚ) * 2 ^ e < 2 ^ (53 : ℤ) * 2 ^ e := by gcongr
    _ = 2 ^ (53 + e) := (zpow_add₀ (by norm_num) _ _).symm
    _ ≤ 2 ^ (1024 : ℤ) := zpow_le_zpow_right₀ (by norm_num) (by omega)

theorem CanonicalPair.le_of_lt (h : CanonicalPair m e) (he : 971 < e) :
    2 ^ (1024 : ℤ) ≤ (m : ℚ) * 2 ^ e := by
  have h₁ : 2 ^ 52 ≤ m := h.2.2.resolve_right (by omega)
  have h₂ : (2 : ℚ) ^ (52 : ℤ) ≤ m := by exact_mod_cast h₁
  calc (2 : ℚ) ^ (1024 : ℤ) ≤ 2 ^ (52 + e) := zpow_le_zpow_right₀ (by norm_num) (by omega)
    _ = 2 ^ (52 : ℤ) * 2 ^ e := zpow_add₀ (by norm_num) _ _
    _ ≤ m * 2 ^ e := by gcongr

theorem representable_value (x : Float) : Representable (value x) := by
  have hc := canonical_unpack x.toModel
  unfold value unpackedValue
  split
  · next h =>
    rw [h] at hc
    cases ‹Sign›
    · exact hc.1.representable.neg
    · exact hc.1.representable
  · exact representable_zero

theorem abs_value_lt (x : Float) : |value x| < 2 ^ (1024 : ℤ) := by
  have hc := canonical_unpack x.toModel
  unfold value unpackedValue
  split
  · next h =>
    rw [h] at hc
    rw [abs_signed, abs_of_nonneg (by positivity)]
    exact hc.1.lt_of_le hc.2
  · simp

theorem nearest_value (x : Float) : nearest (value x) = value x :=
  nearest_of_representable (representable_value x)

theorem CanonicalPair.lt_of_exponent_lt {m' : ℕ} {e' : ℤ} (h : CanonicalPair m e)
    (h' : CanonicalPair m' e') (he : e < e') : (m : ℚ) * 2 ^ e < m' * 2 ^ e' := by
  have h₁ : 2 ^ 52 ≤ m' := h'.2.2.resolve_right (by have := h.2.1; omega)
  have h₂ : (2 : ℚ) ^ (52 : ℤ) ≤ m' := by exact_mod_cast h₁
  have h₃ : (m : ℚ) < 2 ^ (53 : ℤ) := by exact_mod_cast h.1
  calc (m : ℚ) * 2 ^ e < 2 ^ (53 : ℤ) * 2 ^ e := by gcongr
    _ = 2 ^ (53 + e) := (zpow_add₀ (by norm_num) _ _).symm
    _ ≤ 2 ^ (52 + e') := zpow_le_zpow_right₀ (by norm_num) (by omega)
    _ = 2 ^ (52 : ℤ) * 2 ^ e' := zpow_add₀ (by norm_num) _ _
    _ ≤ m' * 2 ^ e' := by gcongr

theorem CanonicalPair.compare_eq {m' : ℕ} {e' : ℤ} (h : CanonicalPair m e)
    (h' : CanonicalPair m' e') :
    (compare e e').then (compare m m') = compare ((m : ℚ) * 2 ^ e) (m' * 2 ^ e') := by
  rcases lt_trichotomy e e' with he | rfl | he
  · rw [compare_lt_iff_lt.mpr he, compare_lt_iff_lt.mpr (h.lt_of_exponent_lt h' he)]
    rfl
  · have hz : (0 : ℚ) < 2 ^ e := zpow_pos (by norm_num) _
    rw [compare_eq_iff_eq.mpr rfl]
    change compare m m' = _
    rcases lt_trichotomy m m' with hm | rfl | hm
    · have hc : (m : ℚ) < m' := by exact_mod_cast hm
      rw [compare_lt_iff_lt.mpr hm, compare_lt_iff_lt.mpr (by gcongr)]
    · rw [compare_eq_iff_eq.mpr rfl, compare_eq_iff_eq.mpr rfl]
    · have hc : (m' : ℚ) < m := by exact_mod_cast hm
      rw [compare_gt_iff_gt.mpr hm, compare_gt_iff_gt.mpr (by gcongr)]
  · rw [compare_gt_iff_gt.mpr he, compare_gt_iff_gt.mpr (h'.lt_of_exponent_lt h he)]
    rfl

theorem compare_neg_neg (q r : ℚ) : compare (-q) (-r) = (compare q r).swap := by
  rcases lt_trichotomy q r with h | rfl | h
  · rw [compare_lt_iff_lt.mpr h, compare_gt_iff_gt.mpr (neg_lt_neg h)]; rfl
  · rw [compare_eq_iff_eq.mpr rfl, compare_eq_iff_eq.mpr rfl]; rfl
  · rw [compare_gt_iff_gt.mpr h, compare_lt_iff_lt.mpr (neg_lt_neg h)]; rfl

theorem compare_unpack (hx : x.isFinite = true) (hy : y.isFinite = true) :
    x.toModel.unpack.compare y.toModel.unpack = some (compare (value x) (value y)) := by
  rw [isFinite_iff] at hx hy
  unfold value
  obtain ⟨s, hx⟩ | ⟨s, m, e, hm, hx, hc, -⟩ := hx <;>
    obtain ⟨s', hy⟩ | ⟨s', m', e', hm', hy, hc', -⟩ := hy <;>
    rw [hx, hy] <;> simp only [unpackedValue]
  · rw [compare_eq_iff_eq.mpr rfl]; rfl
  · have hp : (0 : ℚ) < m' * 2 ^ e' := by positivity
    cases s'
    · rw [signed, compare_gt_iff_gt.mpr (by linarith)]; rfl
    · rw [signed, compare_lt_iff_lt.mpr hp]; rfl
  · have hp : (0 : ℚ) < m * 2 ^ e := by positivity
    cases s
    · rw [signed, compare_lt_iff_lt.mpr (by linarith)]; rfl
    · rw [signed, compare_gt_iff_gt.mpr hp]; rfl
  · have hp : (0 : ℚ) < m * 2 ^ e := by positivity
    have hp' : (0 : ℚ) < m' * 2 ^ e' := by positivity
    cases s <;> cases s' <;> simp only [signed, UnpackedFloat.compare]
    · rw [hc.compare_eq hc', compare_neg_neg]
    · rw [compare_lt_iff_lt.mpr (by linarith)]
    · rw [compare_gt_iff_gt.mpr (by linarith)]
    · rw [hc.compare_eq hc']

theorem lt_iff_compare :
    x < y ↔ x.toModel.unpack.compare y.toModel.unpack = some .lt := by
  change decide _ = true ↔ _
  rw [decide_eq_true_iff]
  change (_ == some Ordering.lt) = true ↔ _
  rw [beq_iff_eq]

theorem le_iff_compare :
    x ≤ y ↔ (x.toModel.unpack.compare y.toModel.unpack).any (·.isLE) = true := by
  change decide _ = true ↔ _
  rw [decide_eq_true_iff]
  rfl

theorem beq_iff_compare :
    (x == y) = true ↔ x.toModel.unpack.compare y.toModel.unpack = some .eq := by
  change (_ == some Ordering.eq) = true ↔ _
  rw [beq_iff_eq]

theorem lt_iff (hx : x.isFinite = true) (hy : y.isFinite = true) : x < y ↔ value x < value y := by
  rw [lt_iff_compare, compare_unpack hx hy, Option.some_inj, compare_lt_iff_lt]

theorem le_iff (hx : x.isFinite = true) (hy : y.isFinite = true) : x ≤ y ↔ value x ≤ value y := by
  rw [le_iff_compare, compare_unpack hx hy, Option.any_some, ← Ordering.ne_gt_iff_isLE]
  exact compare_le_iff_le

theorem beq_iff (hx : x.isFinite = true) (hy : y.isFinite = true) :
    (x == y) = true ↔ value x = value y := by
  rw [beq_iff_compare, compare_unpack hx hy, Option.some_inj, compare_eq_iff_eq]

@[simp] theorem value_zero : value 0 = 0 := by
  have h : (0 : Float).toModel.unpack = .zero .positive := by rfl
  simp [value, h, unpackedValue]

@[simp] theorem value_neg_zero : value (-0) = 0 := by
  have h : (-0 : Float).toModel.unpack = .zero .negative := by rfl
  simp [value, h, unpackedValue]

theorem eq_of_value_eq (hx : x.isFinite = true) (hy : y.isFinite = true)
    (h : value x = value y) (h0 : value x ≠ 0) : x = y := by
  rcases (Float.beq_iff_ne_nan_and_eq.mp ((beq_iff hx hy).mpr h)).2.2 with
    h | ⟨rfl, -⟩ | ⟨rfl, -⟩
  · exact h
  · exact absurd value_zero h0
  · exact absurd value_neg_zero h0

end PolyEq.Binary64
