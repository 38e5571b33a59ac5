import PolyEq.Proofs.Binary64.Nearest
import PolyEq.Proofs.Binary64.Packing

/-! # Rounding by shifts

Significands are shifted to the right with a round bit and a sticky bit. The two bits place the
exact number among the quarters of a unit, which is all that rounding to the nearest needs, so
the shifted and rounded significand is the one of the rational rounding.
-/

namespace PolyEq.Binary64

open Float.Model Float.Model.UnpackedFloat

/-- The round bit and the sticky bit place `y` in the unit after the significand. -/
def Represents (w : ExtendedMantissa) (y : ℚ) : Prop :=
  match w.roundBit, w.stickyBit with
  | false, false => y = w.mantissa
  | false, true => (w.mantissa : ℚ) < y ∧ y < w.mantissa + 1 / 2
  | true, false => y = w.mantissa + 1 / 2
  | true, true => (w.mantissa : ℚ) + 1 / 2 < y ∧ y < w.mantissa + 1

variable {w : ExtendedMantissa} {y q : ℚ} {m k : ℕ} {e : ℤ} {a : Accuracy} {s : Sign}

theorem Represents.bounds (h : Represents w y) : (w.mantissa : ℚ) ≤ y ∧ y < w.mantissa + 1 := by
  unfold Represents at h
  split at h
  · subst h; simp
  · constructor <;> linarith [h.1, h.2]
  · subst h; constructor <;> linarith
  · constructor <;> linarith [h.1, h.2]

theorem Represents.roundedMantissa (h : Represents w y) :
    (w.roundedMantissa : ℤ) = halfEven y := by
  symm
  rcases w with ⟨m, r, t⟩
  cases r <;> cases t <;> simp only [Represents] at h <;>
    simp only [ExtendedMantissa.roundedMantissa, ExtendedMantissa.accuracy,
      Accuracy.roundToNearestEven]
  · subst h; exact halfEven_intCast m
  · refine halfEven_of_abs_lt ?_
    push_cast
    rw [abs_lt]; constructor <;> linarith [h.1, h.2]
  · subst h
    refine halfEven_of_even ?_ ?_
    · rcases Nat.mod_two_eq_zero_or_one m with h₂ | h₂ <;> rw [h₂] <;> push_cast <;>
        rw [abs_le] <;> constructor <;> linarith
    · rw [Int.even_iff]; omega
  · refine halfEven_of_abs_lt ?_
    push_cast
    rw [abs_lt]; constructor <;> linarith [h.1, h.2]

theorem Represents.shiftRightOne (h : Represents w y) : Represents w.shiftRightOne (y / 2) := by
  rcases w with ⟨m, r, t⟩
  have hm : (m : ℚ) = 2 * (m / 2 : ℕ) + (m % 2 : ℕ) := by exact_mod_cast (Nat.div_add_mod m 2).symm
  rcases Nat.mod_two_eq_zero_or_one m with h₂ | h₂ <;> rw [h₂] at hm <;> push_cast at hm <;>
    cases r <;> cases t <;> simp only [Represents] at h <;>
    simp [Represents, ExtendedMantissa.shiftRightOne, h₂] <;>
    first
    | linarith
    | constructor <;> linarith

theorem Represents.shiftRight (h : Represents w y) (k : ℕ) :
    Represents (w >>> k) (y / 2 ^ k) := by
  change Represents (k.repeat ExtendedMantissa.shiftRightOne w) _
  induction k with
  | zero => simpa [Nat.repeat] using h
  | succ k ih =>
    rw [pow_succ, ← div_div]
    exact ih.shiftRightOne

theorem targetExponent_eq (m : ℕ) (e : ℤ) :
    Format.binary64.targetExponent (totalExponent m e) = max (m.log2 + e - 52) (-1074) := by
  have h : Format.binary64.minExponent = -1074 := rfl
  simp only [Format.targetExponent, totalExponent, Format.mantissaBits, h]
  omega

/-- The unit that the shift aims at is the unit in the last place of the exact number. -/
theorem grid_eq_targetExponent (hl : (m : ℚ) ≤ y) (hu : y < m + 1)
    (he : e ≤ max ((m.log2 : ℤ) + e - 52) (-1074)) :
    grid (y * 2 ^ e) = max (m.log2 + e - 52) (-1074) := by
  have hz : (0 : ℚ) < 2 ^ e := zpow_pos (by norm_num) _
  have hy : 0 ≤ y := le_trans (by positivity) hl
  have hq : |y * 2 ^ e| = y * 2 ^ e := abs_of_nonneg (by positivity)
  have hlt : y * 2 ^ e < 2 ^ ((m.log2 : ℤ) + e + 1) := by
    have h₁ : (m : ℚ) + 1 ≤ 2 ^ (m.log2 + 1) := by exact_mod_cast Nat.lt_log2_self
    calc y * 2 ^ e < 2 ^ (m.log2 + 1) * 2 ^ e := by gcongr; linarith
      _ = 2 ^ ((m.log2 : ℤ) + e + 1) := by
        rw [← zpow_natCast, ← zpow_add₀ (by norm_num)]; congr 1; push_cast; ring
  refine le_antisymm (grid_le ?_ (le_max_right _ _)) ?_
  · rw [hq]
    exact hlt.trans_le (zpow_le_zpow_right₀ (by norm_num) (by omega))
  · rcases le_total ((m.log2 : ℤ) + e - 52) (-1074) with h | h
    · rw [max_eq_right h]
      exact le_grid _
    · rw [max_eq_left h]
      apply le_grid_of_le_abs
      have hm : m ≠ 0 := by
        rintro rfl
        simp only [Nat.log2_zero] at h he
        omega
      have h₁ : (2 : ℚ) ^ m.log2 ≤ m := by exact_mod_cast Nat.log2_self_le hm
      rw [hq]
      calc (2 : ℚ) ^ ((m.log2 : ℤ) + e - 52 + 52) = 2 ^ m.log2 * 2 ^ e := by
            rw [← zpow_natCast, ← zpow_add₀ (by norm_num)]; congr 1; ring
        _ ≤ y * 2 ^ e := by gcongr; linarith

/-- The unpacked number with sign `s` and the magnitude to which `q` is rounded. -/
def IsRounded (s : Sign) (q : ℚ) (u : UnpackedFloat) : Prop :=
  u = .zero s ∧ nearest q = 0 ∨
    ∃ m e hm, u = .finite s m e hm ∧ CanonicalPair m e ∧ (m : ℚ) * 2 ^ e = nearest q

theorem shiftToTargetExponent_eq (m : ℕ) (e : ℤ) (a : Accuracy) :
    shiftToTargetExponent .binary64 m e a =
      (ExtendedMantissa.ofMantissaAndAccuracy m a >>>
        (max ((m.log2 : ℤ) + e - 52) (-1074) - e).toNat,
        e + (max ((m.log2 : ℤ) + e - 52) (-1074) - e).toNat) := by
  simp only [shiftToTargetExponent, shiftToExponent, targetExponent_eq]

theorem shiftToTargetExponent_of_lt (hm : m < 2 ^ 53) (he : -1074 ≤ e) :
    shiftToTargetExponent .binary64 m e .exact = (⟨m, false, false⟩, e) := by
  have hl : m.log2 < 53 := by
    by_cases h : m = 0
    · simp [h]
    · exact (Nat.log2_lt h).mpr hm
  have hk : (max ((m.log2 : ℤ) + e - 52) (-1074) - e).toNat = 0 := by omega
  rw [shiftToTargetExponent_eq, hk, Nat.cast_zero, add_zero]
  rfl

theorem shiftToTargetExponent_two_pow (he : -1074 ≤ e) :
    shiftToTargetExponent .binary64 (2 ^ 53) e .exact = (⟨2 ^ 52, false, false⟩, e + 1) := by
  have hk : (max (((2 ^ 53 : ℕ).log2 : ℤ) + e - 52) (-1074) - e).toNat = 1 := by
    rw [Nat.log2_two_pow]; omega
  rw [shiftToTargetExponent_eq, hk]
  rfl

/-- The end of the rounding: a significand that was rounded up to `2 ^ 53` is shifted once more. -/
def carry (s : Sign) (n : ℕ) (e : ℤ) : UnpackedFloat :=
  let (w, f) := shiftToTargetExponent .binary64 n e .exact
  if h : w.mantissa = 0 then .zero s else .finite s w.mantissa f (Nat.pos_of_ne_zero h)

theorem roundWithAccuracy_eq (s : Sign) (m : ℕ) (e : ℤ) (a : Accuracy) :
    roundWithAccuracy .binary64 s m e a =
      carry s (shiftToTargetExponent .binary64 m e a).1.roundedMantissa
        (shiftToTargetExponent .binary64 m e a).2 := rfl

theorem isRounded_carry {q : ℚ} {n : ℕ} (hq : 0 ≤ q) (hn : (n : ℤ) = halfEven (q / ulp q)) :
    IsRounded s q (carry s n (grid q)) := by
  have hle := le_grid q
  have hval : (n : ℚ) * 2 ^ grid q = nearest q := by
    rw [nearest, ← hn, ulp]
    norm_cast
  have h53 : n ≤ 2 ^ 53 := by
    have h := abs_significand_le q
    rw [← hn, abs_le] at h
    exact_mod_cast h.2
  unfold carry
  rcases h53.lt_or_eq with hlt | heq
  · rw [shiftToTargetExponent_of_lt hlt hle]
    dsimp only
    split_ifs with h0
    · exact .inl ⟨rfl, by rw [← hval, h0]; simp⟩
    · refine .inr ⟨_, _, _, rfl, ⟨hlt, hle, ?_⟩, hval⟩
      rcases hle.lt_or_eq with h | h
      · have hs := le_significand hq h
        rw [← hn] at hs
        exact .inl (by exact_mod_cast hs)
      · exact .inr h.symm
  · rw [heq, shiftToTargetExponent_two_pow hle]
    refine .inr ⟨2 ^ 52, grid q + 1, by norm_num, rfl, ⟨by norm_num, by omega, .inl le_rfl⟩, ?_⟩
    rw [← hval, heq, zpow_add_one₀ (by norm_num)]
    push_cast
    ring

/-- The shifted and rounded significand is that of the nearest number of the grid. The exponent
must leave enough bits to round. -/
theorem isRounded_roundWithAccuracy (hy : Represents (.ofMantissaAndAccuracy m a) y)
    (he : e ≤ max ((m.log2 : ℤ) + e - 52) (-1074)) :
    IsRounded s (y * 2 ^ e) (roundWithAccuracy .binary64 s m e a) := by
  have hmant : (ExtendedMantissa.ofMantissaAndAccuracy m a).mantissa = m := by
    unfold ExtendedMantissa.ofMantissaAndAccuracy
    split <;> rfl
  have hb := hy.bounds
  rw [hmant] at hb
  have hgrid := grid_eq_targetExponent hb.1 hb.2 he
  obtain ⟨k, hk⟩ := Int.le.dest he
  have hkn : (max ((m.log2 : ℤ) + e - 52) (-1074) - e).toNat = k := by omega
  have hek : e + k = grid (y * 2 ^ e) := by rw [hgrid, hk]
  have hulp : y / 2 ^ k = y * 2 ^ e / ulp (y * 2 ^ e) := by
    rw [ulp, ← hek, zpow_add₀ (by norm_num), zpow_natCast]
    field_simp
  have hq : 0 ≤ y * 2 ^ e := mul_nonneg (le_trans (by positivity) hb.1) (by positivity)
  have hr := (hy.shiftRight k).roundedMantissa
  rw [hulp] at hr
  rw [roundWithAccuracy_eq, shiftToTargetExponent_eq, hkn, hek]
  exact isRounded_carry hq hr

end PolyEq.Binary64
