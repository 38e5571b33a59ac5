import PolyEq.Decimal
import PolyEq.Rounding
import PolyEq.Proofs.Binary64.Arithmetic

/-! # Exact operations and conversions

A float denotes a rational if it is finite and has that value. Integers and decimals are
converted to the nearest float, and an operation whose exact result is a number of the grid
denotes it. A float that denotes an integer is converted back without loss.
-/

namespace PolyEq.Binary64

open Float.Model Float.Model.UnpackedFloat

structure Denotes (x : Float) (q : ℚ) : Prop where
  isFinite : x.isFinite = true
  value_eq : value x = q

variable {x y : Float} {q r : ℚ} {m : ℕ} {n : ℤ}

theorem denotes_value (hx : x.isFinite = true) : Denotes x (value x) :=
  ⟨hx, rfl⟩

theorem Denotes.representable (h : Denotes x q) : Representable q :=
  h.value_eq ▸ representable_value x

theorem Denotes.lt (h : Denotes x q) : |q| < 2 ^ 1024 := by
  have hv := abs_value_lt x
  rw [h.value_eq] at hv
  exact_mod_cast hv

theorem Rounds.denotes_of_lt (h : Rounds x q) (hq : |nearest q| < 2 ^ (1024 : ℤ)) :
    Denotes x (nearest q) := by
  cases h with
  | finite hx h => exact ⟨hx, h⟩
  | overflow _ _ _ hle => exact absurd hq (not_lt.mpr hle)

theorem Rounds.denotes (h : Rounds x q) (hq : |q| ≤ 2 ^ (1023 : ℤ)) :
    Denotes x (nearest q) := by
  refine h.denotes_of_lt ?_
  rw [abs_nearest]
  calc nearest |q| ≤ 2 ^ (1023 : ℤ) := nearest_le (representable_zpow (by norm_num)) hq
    _ < 2 ^ (1024 : ℤ) := zpow_lt_zpow_right₀ (by norm_num) (by norm_num)

theorem Rounds.denotes_of_representable (h : Rounds x q) (hr : Representable q)
    (hq : |q| < 2 ^ (1024 : ℤ)) : Denotes x q := by
  have hn := nearest_of_representable hr
  have hd := h.denotes_of_lt (by rwa [hn])
  rwa [hn] at hd

section
variable (hx : Denotes x q) (hy : Denotes y r)
include hx hy

theorem Denotes.rounds_add : Rounds (x + y) (q + r) := by
  rw [← hx.value_eq, ← hy.value_eq]
  exact Binary64.rounds_add hx.isFinite hy.isFinite

theorem Denotes.rounds_sub : Rounds (x - y) (q - r) := by
  rw [← hx.value_eq, ← hy.value_eq]
  exact Binary64.rounds_sub hx.isFinite hy.isFinite

theorem Denotes.rounds_mul : Rounds (x * y) (q * r) := by
  rw [← hx.value_eq, ← hy.value_eq]
  exact Binary64.rounds_mul hx.isFinite hy.isFinite

theorem Denotes.rounds_div (h : r ≠ 0) : Rounds (x / y) (q / r) := by
  rw [← hx.value_eq, ← hy.value_eq]
  exact Binary64.rounds_div hx.isFinite hy.isFinite (by rwa [hy.value_eq])

theorem Denotes.lt_iff : x < y ↔ q < r := by
  rw [Binary64.lt_iff hx.isFinite hy.isFinite, hx.value_eq, hy.value_eq]

theorem Denotes.le_iff : x ≤ y ↔ q ≤ r := by
  rw [Binary64.le_iff hx.isFinite hy.isFinite, hx.value_eq, hy.value_eq]

theorem Denotes.beq_iff : (x == y) = true ↔ q = r := by
  rw [Binary64.beq_iff hx.isFinite hy.isFinite, hx.value_eq, hy.value_eq]

theorem Denotes.eq (h : q = r) (h0 : q ≠ 0) : x = y :=
  eq_of_value_eq hx.isFinite hy.isFinite (by rw [hx.value_eq, hy.value_eq, h])
    (by rwa [hx.value_eq])

end

theorem Denotes.neg (h : Denotes x q) : Denotes (-x) (-q) :=
  ⟨by rw [isFinite_neg, h.isFinite], by rw [value_neg, h.value_eq]⟩

theorem Denotes.abs (h : Denotes x q) : Denotes x.abs |q| :=
  ⟨by rw [isFinite_abs, h.isFinite], by rw [value_abs, h.value_eq]⟩

theorem denotes_zero : Denotes 0 0 :=
  ⟨by decide, value_zero⟩

theorem two_pow_le_zpow {k : ℕ} {e : ℤ} (h : k ≤ e) : (2 : ℚ) ^ k ≤ 2 ^ e := by
  rw [← zpow_natCast]
  exact zpow_le_zpow_right₀ (by norm_num) h

theorem zpow_le_one_div_two_pow {k : ℕ} {e : ℤ} (h : e ≤ -k) : (2 : ℚ) ^ e ≤ 1 / 2 ^ k := by
  rw [one_div, ← zpow_natCast, ← zpow_neg]
  exact zpow_le_zpow_right₀ (by norm_num) h

theorem rounds_ofInteger (n : ℤ) : Rounds (Rounding.ofInteger n) n := by
  have h := rounds_normalize n 0 .positive
  rwa [zpow_zero, mul_one] at h

theorem abs_intCast_lt (h : |n| ≤ 2 ^ 53) : |(n : ℚ)| < 2 ^ (1024 : ℤ) := by
  have h₁ : |(n : ℚ)| ≤ 2 ^ (53 : ℤ) := by exact_mod_cast h
  exact h₁.trans_lt (zpow_lt_zpow_right₀ (by norm_num) (by norm_num))

theorem denotes_ofInteger (h : |n| ≤ 2 ^ 53) : Denotes (Rounding.ofInteger n) n :=
  (rounds_ofInteger n).denotes_of_representable (representable_intCast h) (abs_intCast_lt h)

theorem denotes_of_eq (hx : x = Rounding.ofInteger n) (h : |n| ≤ 2 ^ 53) : Denotes x n :=
  hx ▸ denotes_ofInteger h

theorem denotes_one : Denotes 1 1 := by
  simpa using denotes_of_eq (x := 1) (n := 1) (by rfl) (by norm_num)

theorem denotes_two : Denotes 2 2 := by
  simpa using denotes_of_eq (x := 2) (n := 2) (by rfl) (by norm_num)

theorem denotes_four : Denotes 4 4 := by
  simpa using denotes_of_eq (x := 4) (n := 4) (by rfl) (by norm_num)

/-- Shifting to the exponent zero cuts off what stands after the point. -/
theorem exists_roundToInt_eq (s : Sign) (m : ℕ) (e : ℤ) :
    ∃ k : ℕ, roundToInt s m e = s.apply k ∧ (k : ℚ) ≤ m * 2 ^ e ∧ (m : ℚ) * 2 ^ e < k + 1 := by
  set d := m <<< (e - 0).toNat with hd
  set w := ExtendedMantissa.ofMantissaAndAccuracy d .exact >>> (0 - (e - (e - 0).toNat)).toNat
  have hy : (m : ℚ) * 2 ^ e = d / 2 ^ (0 - (e - (e - 0).toNat)).toNat := by
    rw [hd, cast_shiftLeft, mul_div_assoc, ← zpow_natCast, ← zpow_natCast,
      ← zpow_sub₀ two_ne_zero]
    congr 2
    omega
  have hr : Represents w (m * 2 ^ e) :=
    hy ▸ Represents.shiftRight (w := .ofMantissaAndAccuracy d .exact) rfl _
  exact ⟨w.mantissa, rfl, hr.bounds⟩

/-- An integer that fits into a word is not clamped when a float is converted to it. -/
theorem Denotes.toInt_toInt64 (h : Denotes x n) (hl : Int64.minValue.toInt ≤ n)
    (hu : n ≤ Int64.maxValue.toInt) : x.toModel.toInt64.toInt = n := by
  suffices hn : x.toModel.unpack.toInt Int64.minValue.toInt Int64.maxValue.toInt = n by
    change (Int64.ofIntClamp (x.toModel.unpack.toInt _ _)).toInt = n
    rw [hn, Int64.toInt_ofIntClamp hl hu]
  obtain ⟨s, hx, hv⟩ | ⟨s, m, e, hm, hx, -, -, hv⟩ := finite_cases h.isFinite <;>
    rw [h.value_eq] at hv <;> rw [hx]
  · exact_mod_cast hv.symm
  · obtain ⟨k, hk, hle, hlt⟩ := exists_roundToInt_eq s m e
    have habs : |(n : ℚ)| = m * 2 ^ e := by
      rw [hv, abs_signed, abs_of_nonneg (by positivity)]
    rw [← habs] at hle hlt
    have hk' : (k : ℤ) = |n| := by
      have hle' : (k : ℤ) ≤ |n| := by exact_mod_cast hle
      have hlt' : |n| < k + 1 := by exact_mod_cast hlt
      omega
    change roundToInt s m e = n
    rw [hk, ← Int.cast_inj (α := ℚ), apply_cast, hv, ← habs, hk']
    push_cast
    rfl

theorem nearest_eq_zero (h : |q| < 2 ^ (-1075 : ℤ)) : nearest q = 0 := by
  have hg : grid q = -1074 := by
    refine le_antisymm (grid_le (h.trans ?_) le_rfl) (le_grid q)
    exact zpow_lt_zpow_right₀ (by norm_num) (by norm_num)
  have hu : ulp q / 2 = 2 ^ (-1075 : ℤ) := by
    rw [ulp, hg, div_eq_mul_inv, ← zpow_sub_one₀ (by norm_num)]
    norm_num
  have hn := nearest_eq_of_abs_le (y := q) (n := 0)
  rw [Int.cast_zero, zero_mul, zero_sub, abs_neg, hu] at hn
  exact hn h.le fun h' => absurd h' h.ne

/-- The decimal exponents that the conversion refuses give numbers out of range. -/
theorem lt_of_exponent_lt {e : ℤ} (hm : 0 < m) (he : e < -(2 ^ 11 + m.log2)) :
    (m : ℚ) * 10 ^ e < 2 ^ (-1075 : ℤ) := by
  have h₁ : (m : ℚ) < 2 ^ ((m.log2 : ℤ) + 1) := by
    exact_mod_cast Nat.lt_log2_self (n := m)
  calc (m : ℚ) * 10 ^ e ≤ m * 10 ^ (-(2 ^ 11 + m.log2) : ℤ) := by
        gcongr
        norm_num
    _ ≤ m * 2 ^ (-(2 ^ 11 + m.log2) : ℤ) := by
        rw [zpow_neg, zpow_neg]
        gcongr
        exact zpow_le_zpow_left₀ (by positivity) (by norm_num) (by norm_num)
    _ < 2 ^ ((m.log2 : ℤ) + 1) * 2 ^ (-(2 ^ 11 + m.log2) : ℤ) := by gcongr
    _ = 2 ^ (-2047 : ℤ) := by rw [← zpow_add₀ (by norm_num)]; congr 1; ring
    _ ≤ 2 ^ (-1075 : ℤ) := zpow_le_zpow_right₀ (by norm_num) (by norm_num)

theorem le_of_lt_exponent {e : ℤ} (hm : 0 < m) (he : 2 ^ 11 < e) :
    2 ^ (1024 : ℤ) ≤ (m : ℚ) * 10 ^ e := by
  have h₁ : (1 : ℚ) ≤ m := by exact_mod_cast hm
  calc (2 : ℚ) ^ (1024 : ℤ) ≤ 2 ^ e := zpow_le_zpow_right₀ (by norm_num) (by omega)
    _ ≤ 10 ^ e := zpow_le_zpow_left₀ (by omega) (by norm_num) (by norm_num)
    _ = 1 * 10 ^ e := (one_mul _).symm
    _ ≤ m * 10 ^ e := by gcongr

theorem rounds_nearestFloat (m : ℕ) (e : ℤ) :
    Rounds (Decimal.nearestFloat m e) (m * 10 ^ e) := by
  change Rounds (.ofModel (.pack (.ofScientific .binary64 m e))) _
  unfold UnpackedFloat.ofScientific
  have hbits : (2 ^ Format.binary64.exponentBits : ℤ) = 2 ^ 11 := rfl
  rw [hbits]
  split_ifs with hm he hl h0
  · rw [hm, Nat.cast_zero, zero_mul]
    exact rounds_zero _
  · have hle := le_of_lt_exponent (Nat.pos_of_ne_zero hm) he
    refine .overflow .positive unpack_pack_infinity (lt_of_lt_of_le (by positivity) hle) ?_
    rw [abs_of_nonneg (nearest_nonneg (by positivity))]
    exact le_nearest (representable_zpow (by norm_num)) hle
  · have hlt := lt_of_exponent_lt (Nat.pos_of_ne_zero hm) hl
    refine .finite (isFinite_ofModel_pack_zero _) ?_
    rw [value, unpack_toModel_ofModel, unpack_pack_zero, nearest_eq_zero]
    · rfl
    · rwa [abs_of_nonneg (by positivity)]
  · have hv : (m : ℚ) * 10 ^ e.toNat =
        (m <<< 53 : ℕ) * 2 ^ (-53 : ℤ) * ((10 ^ e.toNat : ℕ) * 2 ^ (0 : ℤ)) := by
      rw [cast_shiftLeft, mul_assoc (m : ℚ), ← zpow_natCast (2 : ℚ), ← zpow_add₀ (by norm_num)]
      push_cast
      simp
    have hm' : 2 ^ 52 ≤ m <<< 53 * 10 ^ e.toNat := by
      calc 2 ^ 52 ≤ 1 * 2 ^ 53 * 1 := by norm_num
        _ ≤ m <<< 53 * 10 ^ e.toNat := by
          rw [Nat.shiftLeft_eq]
          gcongr
          · exact Nat.pos_of_ne_zero hm
          · exact Nat.one_le_pow _ _ (by norm_num)
    have h := isRounded_mul (s := .positive) (e := -53) (f := 0) (.inl hm')
    rw [← hv] at h
    have h' := h.rounds (by positivity)
    rw [← Int.toNat_of_nonneg h0, zpow_natCast]
    exact h'
  · have hv : (m : ℚ) * 10 ^ e = m * 2 ^ (0 : ℤ) / ((10 ^ (-e).toNat : ℕ) * 2 ^ (0 : ℤ)) := by
      have hp : (10 : ℚ) ^ e = (10 ^ (-e).toNat)⁻¹ := by
        rw [← zpow_natCast, ← zpow_neg, Int.toNat_of_nonneg (by omega), neg_neg]
      rw [hp]
      push_cast
      simp [div_eq_mul_inv]
    rw [hv]
    exact (isRounded_div (Nat.pos_of_ne_zero hm) (by positivity)).rounds (by positivity)

end PolyEq.Binary64
