import Mathlib

/-! # Canonical significands

The significand of a stored binary64 number has 53 bits, or fewer at the least exponent. On such
numbers packing and unpacking are inverse to each other, up to the numbers whose exponent is
too large: they are packed as infinities.
-/

namespace PolyEq.Binary64

open Float.Model Float.Model.UnpackedFloat

/-- A significand below `2 ^ 53` that is normal or stands at the least exponent. -/
def CanonicalPair (m : ℕ) (e : ℤ) : Prop :=
  m < 2 ^ 53 ∧ -1074 ≤ e ∧ (2 ^ 52 ≤ m ∨ e = -1074)

def Canonical : UnpackedFloat → Prop
  | .finite _ m e _ => CanonicalPair m e ∧ e ≤ 971
  | _ => True

variable {s : Sign} {m : ℕ} {e : ℤ} {hm : 0 < m} {u : UnpackedFloat}

theorem unpack_pack (u : UnpackedFloat) : (Float.Model.pack u).unpack =
    UnpackedFloat.unpack .binary64 (UnpackedFloat.pack .binary64 u) := rfl

theorem toNat_one_append (v : BitVec 52) : (1#1 ++ v).toNat = 2 ^ 52 + v.toNat := by
  rw [BitVec.toNat_append, ← Nat.shiftLeft_add_eq_or_of_lt v.isLt]
  rfl

theorem canonical_unpack (x : Float.Model) : Canonical x.unpack := by
  unfold Float.Model.unpack
  generalize x.toBits.toBitVec = b
  fun_cases UnpackedFloat.unpack with
  | case1 => trivial
  | case2 => trivial
  | case3 => trivial
  | case4 v w e sv s h₁ h₀ hv =>
    have hlt : v.toNat < 2 ^ 52 := v.isLt
    have he : e + 1 = -1074 := by simp only [e, h₀]; rfl
    exact ⟨⟨by omega, by omega, .inr he⟩, by omega⟩
  | case5 v w e sv s h₁ h₀ =>
    have hlt : v.toNat < 2 ^ 52 := v.isLt
    have hw : w.toNat < 2 ^ 11 := w.isLt
    have hw₀ : w.toNat ≠ 0 := fun h => h₀ (BitVec.eq_of_toNat_eq h)
    have hw₁ : w.toNat ≠ 2047 := fun h => h₁ (BitVec.eq_of_toNat_eq h)
    have he : e = (w.toNat : ℤ) - 1075 := rfl
    rw [Canonical, CanonicalPair, toNat_one_append]
    omega

@[simp] theorem unpack_pack_zero : (Float.Model.pack (.zero s)).unpack = .zero s := by
  simp [unpack_pack, UnpackedFloat.pack]

@[simp] theorem unpack_pack_nan :
    (Float.Model.pack .notANumber).unpack = .notANumber := by
  simp [unpack_pack, UnpackedFloat.pack]

@[simp] theorem unpack_packedInfinity :
    UnpackedFloat.unpack .binary64 (packedInfinity .binary64 s) = .infinity s := by
  cases s <;> rfl

@[simp] theorem unpack_pack_infinity :
    (Float.Model.pack (.infinity s)).unpack = .infinity s := by
  simp [unpack_pack, UnpackedFloat.pack]

theorem pack_finite (s : Sign) (m : ℕ) (e : ℤ) (hm : 0 < m) :
    UnpackedFloat.pack .binary64 (.finite s m e hm) =
      if 2047 ≤ (e + 1075).toNat then packedInfinity .binary64 s
      else if m.log2 = 52 then
        packComponents .binary64 s (BitVec.ofNat 11 (e + 1075).toNat) (BitVec.ofNat 52 m)
      else packComponents .binary64 s 0#11 (BitVec.ofNat 52 m) := by
  have hb : (e + (Format.binary64.exponentBias : ℤ) + (52 : ℕ)).toNat = (e + 1075).toNat := by
    have h : (Format.binary64.exponentBias : ℤ) = 1023 := rfl
    omega
  have hi : (2 ^ 11 ≤ (e + 1075).toNat + 1) = (2047 ≤ (e + 1075).toNat) := by
    simp only [eq_iff_iff]; omega
  have hn : (m.log2 + 1 = Format.binary64.mantissaBits) = (m.log2 = 52) := by
    simp only [Format.mantissaBits, eq_iff_iff]; omega
  simp only [UnpackedFloat.pack, hb, hi, hn]

theorem unpack_pack_overflow (he : 972 ≤ e) :
    (Float.Model.pack (.finite s m e hm)).unpack = .infinity s := by
  rw [unpack_pack, pack_finite, if_pos (by omega)]
  exact unpack_packedInfinity

/-- A full significand is stored without its first bit. -/
theorem unpack_pack_normal (hl : 2 ^ 52 ≤ m) (hu : m < 2 ^ 53) (he : -1074 ≤ e) (he' : e ≤ 971) :
    (Float.Model.pack (.finite s m e hm)).unpack = .finite s m e hm := by
  have hv : (BitVec.ofNat 52 m).toNat = m % 2 ^ 52 := BitVec.toNat_ofNat ..
  have hw : (BitVec.ofNat 11 (e + 1075).toNat).toNat = (e + 1075).toNat := by
    rw [BitVec.toNat_ofNat, Nat.mod_eq_of_lt (by omega)]
  have h₁ : BitVec.ofNat 11 (e + 1075).toNat ≠ -1#11 := fun h => by
    have := congrArg BitVec.toNat h
    rw [hw] at this
    change _ = 2047 at this
    omega
  have h₀ : BitVec.ofNat 11 (e + 1075).toNat ≠ 0#11 := fun h => by
    have := congrArg BitVec.toNat h
    rw [hw] at this
    change _ = 0 at this
    omega
  have hm' : (1#1 ++ BitVec.ofNat 52 m).toNat = m := by
    rw [toNat_one_append, hv]
    omega
  have hb : ((e + 1075).toNat : ℤ) - ((Format.binary64.exponentBias : ℤ) + 52) = e := by
    have h : (Format.binary64.exponentBias : ℤ) = 1023 := rfl
    omega
  rw [unpack_pack, pack_finite, if_neg (by omega),
    if_pos ((Nat.log2_eq_iff (by omega)).mpr ⟨hl, hu⟩)]
  simp only [UnpackedFloat.unpack, unpackExponent_packComponents, unpackMantissa_packComponents,
    unpackSign_packComponents, Sign.ofBitVec_toBitVec, if_neg h₁, if_neg h₀, hw, hm']
  congr 1

theorem unpack_pack_subnormal (hu : m < 2 ^ 52) :
    (Float.Model.pack (.finite s m (-1074) hm)).unpack = .finite s m (-1074) hm := by
  have hv : (BitVec.ofNat 52 m).toNat = m % 2 ^ 52 := BitVec.toNat_ofNat ..
  have hz : BitVec.ofNat 52 m ≠ 0#52 := fun h => by
    have := congrArg BitVec.toNat h
    rw [hv] at this
    change _ = 0 at this
    omega
  rw [unpack_pack, pack_finite, if_neg (by omega),
    if_neg fun h => hu.not_ge (((Nat.log2_eq_iff hm.ne').mp h).1)]
  simp only [UnpackedFloat.unpack, unpackExponent_packComponents, unpackMantissa_packComponents,
    unpackSign_packComponents, Sign.ofBitVec_toBitVec, hz, hv, BitVec.zero_eq_neg_one_iff]
  rw [if_neg (by decide), if_pos trivial, dif_neg not_false]
  congr 1
  omega

theorem unpack_pack_finite (h : CanonicalPair m e) (he : e ≤ 971) :
    (Float.Model.pack (.finite s m e hm)).unpack = .finite s m e hm := by
  obtain ⟨hu, hl, hn⟩ := h
  rcases le_or_gt (2 ^ 52) m with hlo | hlt
  · exact unpack_pack_normal hlo hu hl he
  · obtain rfl : e = -1074 := hn.resolve_left hlt.not_ge
    exact unpack_pack_subnormal hlt

end PolyEq.Binary64
