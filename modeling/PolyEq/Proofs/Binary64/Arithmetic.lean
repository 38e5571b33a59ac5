import PolyEq.Proofs.Binary64.Value

/-! # Correct rounding

Each operation on finite floats gives the exact rational result, rounded once. A result beyond
the largest float is an infinity.
-/

namespace PolyEq.Binary64

open Float.Model Float.Model.UnpackedFloat

/-- `x` is the number `q` rounded, or an infinity with the sign of `q` if that is too large. -/
inductive Rounds (x : Float) (q : ℚ) : Prop where
  | finite (isFinite : x.isFinite = true) (eq : value x = nearest q)
  | overflow (s : Sign) (eq : x.toModel.unpack = .infinity s)
      (pos : 0 < signed s q) (le : 2 ^ (1024 : ℤ) ≤ |nearest q|)

variable {x y : Float} {u v : UnpackedFloat} {s t : Sign} {q r : ℚ} {m n : ℕ} {e f : ℤ}

theorem signed_signed (s : Sign) (q : ℚ) : signed s (signed s q) = q := by
  cases s <;> simp [signed]

theorem signed_mul (s t : Sign) (q r : ℚ) : signed (s * t) (q * r) = signed s q * signed t r := by
  cases s <;> cases t
  · exact (neg_mul_neg q r).symm
  · exact (neg_mul q r).symm
  · exact (mul_neg q r).symm
  · rfl

theorem signed_div (s t : Sign) (q r : ℚ) : signed (s / t) (q / r) = signed s q / signed t r := by
  cases s <;> cases t
  · exact (neg_div_neg_eq q r).symm
  · exact (neg_div r q).symm
  · exact (div_neg q).symm
  · rfl

theorem isFinite_ofModel_pack_zero (s : Sign) :
    (Float.ofModel (.pack (.zero s))).isFinite = true := by
  rw [isFinite_iff, unpack_toModel_ofModel]
  exact .inl ⟨s, unpack_pack_zero⟩

theorem rounds_zero (s : Sign) : Rounds (.ofModel (.pack (.zero s))) 0 := by
  refine .finite (isFinite_ofModel_pack_zero s) ?_
  rw [value, unpack_toModel_ofModel, unpack_pack_zero, nearest_zero]
  rfl

theorem rounds_finite {hm : 0 < m} (hc : CanonicalPair m e) (h : (m : ℚ) * 2 ^ e = nearest q)
    (hq : 0 ≤ q) : Rounds (.ofModel (.pack (.finite s m e hm))) (signed s q) := by
  rcases le_or_gt e 971 with he | he
  · refine .finite (isFinite_iff.mpr (.inr ⟨s, m, e, hm, unpack_pack_finite hc he, hc, he⟩)) ?_
    rw [value, unpack_toModel_ofModel, unpack_pack_finite hc he, unpackedValue, h, nearest_signed]
  · refine .overflow s (unpack_pack_overflow he) ?_ ?_
    · rw [signed_signed]
      refine hq.lt_of_ne ?_
      rintro rfl
      rw [nearest_zero] at h
      exact absurd h (by positivity)
    · rw [nearest_signed, abs_signed, ← h, abs_of_nonneg (by positivity)]
      exact hc.le_of_lt he

theorem IsRounded.rounds (h : IsRounded s q u) (hq : 0 ≤ q) :
    Rounds (.ofModel (.pack u)) (signed s q) := by
  obtain ⟨rfl, h⟩ | ⟨m, e, hm, rfl, hc, h⟩ := h
  · refine .finite (isFinite_ofModel_pack_zero s) ?_
    rw [value, unpack_toModel_ofModel, unpack_pack_zero, nearest_signed, h, signed_zero]
    rfl
  · exact rounds_finite hc h hq

theorem log2_shiftLeft (hm : 0 < m) (k : ℕ) : (m <<< k).log2 = m.log2 + k := by
  induction k with
  | zero => rfl
  | succ k ih =>
    have h : m <<< (k + 1) = 2 * (m <<< k) := by rw [Nat.shiftLeft_succ]
    rw [h, Nat.log2_two_mul (by simpa using hm.ne'), ih, add_assoc]

theorem cast_shiftLeft (m k : ℕ) : ((m <<< k : ℕ) : ℚ) = m * 2 ^ k := by
  rw [Nat.shiftLeft_eq]; push_cast; rfl

theorem isRounded_round (hm : 0 < m) (e : ℤ) :
    IsRounded s (m * 2 ^ e) (UnpackedFloat.round .binary64 s m e) := by
  unfold UnpackedFloat.round decreaseExponent
  rw [targetExponent_eq]
  set k := (e - max ((m.log2 : ℤ) + e - 52) (-1074)).toNat with hk
  have hv : (m : ℚ) * 2 ^ e = (m <<< k : ℕ) * 2 ^ (e - k : ℤ) := by
    rw [cast_shiftLeft, zpow_sub₀ (by norm_num), zpow_natCast]
    field_simp
  rw [hv]
  refine isRounded_roundWithAccuracy rfl ?_
  rw [log2_shiftLeft hm]
  push_cast
  omega

theorem rounds_normalize (n e : ℤ) (s : Sign) :
    Rounds (.ofModel (.pack (UnpackedFloat.normalize .binary64 n e s))) (n * 2 ^ e) := by
  unfold UnpackedFloat.normalize
  rcases lt_trichotomy n 0 with h | rfl | h
  · rw [compare_lt_iff_lt.mpr h]
    have hv : ((n : ℚ)) * 2 ^ e = signed .negative ((-n).toNat * 2 ^ e) := by
      have hn : (((-n).toNat : ℤ) : ℚ) = -n := by
        rw [Int.toNat_of_nonneg (by omega)]; push_cast; rfl
      rw [signed, ← neg_mul]
      congr 1
      rw [← neg_eq_iff_eq_neg]
      exact_mod_cast hn.symm
    rw [hv]
    exact (isRounded_round (by omega) e).rounds (by positivity)
  · rw [compare_eq_iff_eq.mpr rfl, Int.cast_zero, zero_mul]
    exact rounds_zero s
  · rw [compare_gt_iff_gt.mpr h]
    have hv : ((n : ℚ)) * 2 ^ e = signed .positive (n.toNat * 2 ^ e) := by
      have hn : ((n.toNat : ℤ) : ℚ) = n := by rw [Int.toNat_of_nonneg (by omega)]
      rw [signed]
      congr 1
      exact_mod_cast hn.symm
    rw [hv]
    exact (isRounded_round (by omega) e).rounds (by positivity)

theorem isRounded_mul (h : 2 ^ 52 ≤ m * n ∨ e + f ≤ -1074) :
    IsRounded s (m * 2 ^ e * (n * 2 ^ f))
      (roundWithAccuracy .binary64 s (m * n) (e + f) .exact) := by
  have hv : (m : ℚ) * 2 ^ e * (n * 2 ^ f) = (m * n : ℕ) * 2 ^ (e + f) := by
    rw [zpow_add₀ (by norm_num)]; push_cast; ring
  rw [hv]
  refine isRounded_roundWithAccuracy rfl ?_
  rcases h with h | h
  · have hl : 52 ≤ (m * n).log2 := (Nat.le_log2 (by omega)).mpr h
    omega
  · omega

theorem represents_div (hn : 0 < n) (m : ℕ) :
    Represents (.ofMantissaAndAccuracy (m / n) (accuracyOfFraction (m % n) n)) ((m : ℚ) / n) := by
  have hn' : (0 : ℚ) < n := by exact_mod_cast hn
  have hlt : ((m % n : ℕ) : ℚ) < n := by exact_mod_cast Nat.mod_lt m hn
  have hv : (m : ℚ) / n = (m / n : ℕ) + (m % n : ℕ) / n := by
    rw [eq_comm, ← eq_sub_iff_add_eq', div_eq_iff hn'.ne', sub_mul, div_mul_cancel₀ _ hn'.ne',
      eq_sub_iff_add_eq']
    exact_mod_cast Nat.div_add_mod' m n
  rw [hv]
  generalize m / n = d
  unfold accuracyOfFraction
  split_ifs with h0
  · rw [h0, Nat.cast_zero, zero_div, add_zero]
    rfl
  · have hpos : (0 : ℚ) < (m % n : ℕ) / n := div_pos (by exact_mod_cast Nat.pos_of_ne_zero h0) hn'
    rcases lt_trichotomy (2 * (m % n)) n with h | h | h
    · have hc : 2 * ((m % n : ℕ) : ℚ) < n := by exact_mod_cast h
      have h₁ : ((m % n : ℕ) : ℚ) / n < 1 / 2 := by rw [div_lt_iff₀ hn']; linarith
      rw [compare_lt_iff_lt.mpr h]
      simp only [Represents, ExtendedMantissa.ofMantissaAndAccuracy]
      constructor <;> linarith
    · have hc : 2 * ((m % n : ℕ) : ℚ) = n := by exact_mod_cast h
      have h₁ : ((m % n : ℕ) : ℚ) / n = 1 / 2 := by rw [div_eq_iff hn'.ne']; linarith
      rw [compare_eq_iff_eq.mpr h, h₁]
      rfl
    · have hc : (n : ℚ) < 2 * (m % n : ℕ) := by exact_mod_cast h
      have h₁ : 1 / 2 < ((m % n : ℕ) : ℚ) / n := by rw [lt_div_iff₀ hn']; linarith
      have h₂ : ((m % n : ℕ) : ℚ) / n < 1 := by rw [div_lt_iff₀ hn']; linarith
      rw [compare_gt_iff_gt.mpr h]
      simp only [Represents, ExtendedMantissa.ofMantissaAndAccuracy]
      constructor <;> linarith

/-- The quotient has enough bits to be rounded. -/
theorem isRounded_div (hm : 0 < m) (hn : 0 < n) :
    IsRounded s (m * 2 ^ e / (n * 2 ^ f))
      (roundWithAccuracy .binary64 s (divCore .binary64 m e n f).1
        (divCore .binary64 m e n f).2.1 (divCore .binary64 m e n f).2.2) := by
  have ht : Format.binary64.targetExponent (totalExponent m e - totalExponent n f) =
      max ((m.log2 : ℤ) + e - (n.log2 + f) - 53) (-1074) := by
    have h : Format.binary64.minExponent = -1074 := rfl
    simp only [Format.targetExponent, totalExponent, Format.mantissaBits, h]
    omega
  unfold divCore
  rw [ht]
  set te := min (e - f) (max ((m.log2 : ℤ) + e - (n.log2 + f) - 53) (-1074)) with hte
  set k := (e - f - te).toNat with hk
  have hn' : (n : ℚ) ≠ 0 := by exact_mod_cast hn.ne'
  have hv : (m : ℚ) * 2 ^ e / (n * 2 ^ f) = (m <<< k : ℕ) / n * 2 ^ te := by
    have hef : (2 : ℚ) ^ e = 2 ^ k * 2 ^ te * 2 ^ f := by
      rw [← zpow_natCast, ← zpow_add₀ (by norm_num), ← zpow_add₀ (by norm_num)]
      congr 1
      omega
    have hf : (2 : ℚ) ^ f ≠ 0 := by positivity
    rw [cast_shiftLeft, hef]
    field_simp
  rw [hv]
  refine isRounded_roundWithAccuracy (represents_div hn _) ?_
  change te ≤ max (((m <<< k / n).log2 : ℤ) + te - 52) (-1074)
  rcases le_or_gt te (-1074) with h | h
  · exact h.trans (le_max_right _ _)
  · have hk' : n.log2 + 53 ≤ m.log2 + k := by omega
    have hlog : 2 ^ 52 * n ≤ m <<< k := by
      calc 2 ^ 52 * n ≤ 2 ^ 52 * 2 ^ (n.log2 + 1) := by gcongr; exact Nat.lt_log2_self.le
        _ = 2 ^ (n.log2 + 53) := by rw [← pow_add]; congr 1; omega
        _ ≤ 2 ^ (m.log2 + k) := Nat.pow_le_pow_right (by norm_num) hk'
        _ = 2 ^ m.log2 * 2 ^ k := pow_add ..
        _ ≤ m * 2 ^ k := by gcongr; exact Nat.log2_self_le hm.ne'
        _ = m <<< k := (Nat.shiftLeft_eq _ _).symm
    have hq : 2 ^ 52 ≤ m <<< k / n := (Nat.le_div_iff_mul_le hn).mpr hlog
    have hl : 52 ≤ (m <<< k / n).log2 := (Nat.le_log2 (by omega)).mpr hq
    omega

theorem mul_eq (x y : Float) :
    x * y = .ofModel (.pack (.mul .binary64 x.toModel.unpack y.toModel.unpack)) := rfl

theorem div_eq (x y : Float) :
    x / y = .ofModel (.pack (.div .binary64 x.toModel.unpack y.toModel.unpack)) := rfl

theorem add_eq (x y : Float) :
    x + y = .ofModel (.pack (.add .binary64 x.toModel.unpack y.toModel.unpack)) := rfl

theorem sub_eq (x y : Float) :
    x - y = .ofModel (.pack (.sub .binary64 x.toModel.unpack y.toModel.unpack)) := rfl

theorem neg_eq (x : Float) : -x = .ofModel (.pack x.toModel.unpack.neg) := rfl

theorem abs_eq (x : Float) : x.abs = .ofModel (.pack x.toModel.unpack.abs) := rfl

theorem pack_unpack_toModel (x : Float) : Float.ofModel (.pack x.toModel.unpack) = x :=
  Float.ofBits_toBits x

theorem finite_cases (hx : x.isFinite = true) :
    (∃ s, x.toModel.unpack = .zero s ∧ value x = 0) ∨
    ∃ s m e hm, x.toModel.unpack = .finite s m e hm ∧ CanonicalPair m e ∧ e ≤ 971 ∧
      value x = signed s (m * 2 ^ e) := by
  obtain ⟨s, h⟩ | ⟨s, m, e, hm, h, hc, he⟩ := isFinite_iff.mp hx
  · exact .inl ⟨s, h, by rw [value, h]; rfl⟩
  · exact .inr ⟨s, m, e, hm, h, hc, he, by rw [value, h]; rfl⟩

theorem unpack_pack_of_canonical (h : Canonical u) : (Float.Model.pack u).unpack = u := by
  match u, h with
  | .notANumber, _ => exact unpack_pack_nan
  | .infinity s, _ => exact unpack_pack_infinity
  | .zero s, _ => exact unpack_pack_zero
  | .finite s m e hm, h => exact unpack_pack_finite h.1 h.2

theorem Canonical.neg (h : Canonical u) : Canonical u.neg := by
  cases u <;> exact h

theorem Canonical.abs (h : Canonical u) : Canonical u.abs := by
  cases u <;> exact h

theorem unpack_neg (x : Float) : (-x).toModel.unpack = x.toModel.unpack.neg := by
  rw [neg_eq, unpack_toModel_ofModel, unpack_pack_of_canonical (canonical_unpack _).neg]

theorem unpack_abs (x : Float) : x.abs.toModel.unpack = x.toModel.unpack.abs := by
  rw [abs_eq, unpack_toModel_ofModel, unpack_pack_of_canonical (canonical_unpack _).abs]

@[simp] theorem value_neg (x : Float) : value (-x) = -value x := by
  rw [value, unpack_neg, value]
  cases x.toModel.unpack <;> simp [UnpackedFloat.neg, unpackedValue, signed_neg]

@[simp] theorem value_abs (x : Float) : value x.abs = |value x| := by
  rw [value, unpack_abs, value]
  cases x.toModel.unpack <;> simp [UnpackedFloat.abs, unpackedValue]
  rfl

@[simp] theorem isFinite_neg (x : Float) : (-x).isFinite = x.isFinite := by
  change (-x).toModel.unpack.isFinite = x.toModel.unpack.isFinite
  rw [unpack_neg]
  cases x.toModel.unpack <;> rfl

@[simp] theorem isFinite_abs (x : Float) : x.abs.isFinite = x.isFinite := by
  change x.abs.toModel.unpack.isFinite = x.toModel.unpack.isFinite
  rw [unpack_abs]
  cases x.toModel.unpack <;> rfl

theorem sign_neg_neg (s : Sign) : - -s = s := by
  cases s <;> rfl

theorem float_neg_neg (x : Float) : - -x = x := by
  apply unpack_injective
  simp only [unpack_neg]
  cases x.toModel.unpack <;> simp [UnpackedFloat.neg, sign_neg_neg]

theorem float_sub_eq_add_neg (x y : Float) : x - y = x + -y := by
  rw [sub_eq, add_eq, unpack_neg]
  congr 2
  cases x.toModel.unpack <;> cases y.toModel.unpack <;>
    simp only [UnpackedFloat.sub, UnpackedFloat.add, UnpackedFloat.neg]
  next s m e hm t n f hn =>
  cases t
  · exact congrArg (UnpackedFloat.normalize _ · _ _) (sub_neg_eq_add _ _)
  · exact congrArg (UnpackedFloat.normalize _ · _ _) (sub_eq_add_neg _ _)

theorem rounds_mul (hx : x.isFinite = true) (hy : y.isFinite = true) :
    Rounds (x * y) (value x * value y) := by
  rw [mul_eq]
  obtain ⟨s, hu, hx⟩ | ⟨s, m, e, hm, hu, hc, -, hx⟩ := finite_cases hx <;>
    obtain ⟨t, hv, hy⟩ | ⟨t, n, f, hn, hv, hd, -, hy⟩ := finite_cases hy <;>
    rw [hu, hv, hx, hy]
  · rw [zero_mul]; exact rounds_zero _
  · rw [zero_mul]; exact rounds_zero _
  · rw [mul_zero]; exact rounds_zero _
  · rw [← signed_mul]
    refine (isRounded_mul ?_).rounds (by positivity)
    rcases hc.2.2, hd.2.2 with ⟨h | h, h' | h'⟩
    · exact .inl (h.trans (Nat.le_mul_of_pos_right m hn))
    · exact .inl (h.trans (Nat.le_mul_of_pos_right m hn))
    · exact .inl (h'.trans (Nat.le_mul_of_pos_left n hm))
    · exact .inr (by omega)

theorem rounds_div (hx : x.isFinite = true) (hy : y.isFinite = true) (h : value y ≠ 0) :
    Rounds (x / y) (value x / value y) := by
  rw [div_eq]
  obtain ⟨t, -, hy⟩ | ⟨t, n, f, hn, hv, -, -, hy⟩ := finite_cases hy
  · exact absurd hy h
  obtain ⟨s, hu, hx⟩ | ⟨s, m, e, hm, hu, -, -, hx⟩ := finite_cases hx <;> rw [hu, hv, hx, hy]
  · rw [zero_div]; exact rounds_zero _
  · rw [← signed_div]
    exact (isRounded_div hm hn).rounds (by positivity)

theorem rounds_self (hx : x.isFinite = true) : Rounds x (value x) :=
  .finite hx (nearest_value x).symm

theorem cast_decreaseExponent (m : ℕ) (h : f ≤ e) :
    (((decreaseExponent m e f).1 : ℕ) : ℚ) * 2 ^ f = m * 2 ^ e := by
  change ((m <<< (e - f).toNat : ℕ) : ℚ) * 2 ^ f = _
  rw [cast_shiftLeft, mul_assoc, ← zpow_natCast, ← zpow_add₀ (by norm_num)]
  congr 2
  omega

theorem rounds_add (hx : x.isFinite = true) (hy : y.isFinite = true) :
    Rounds (x + y) (value x + value y) := by
  rw [add_eq]
  obtain ⟨s, hu, hx₀⟩ | ⟨s, m, e, hm, hu, -, -, hx₀⟩ := finite_cases hx <;>
    obtain ⟨t, hv, hy₀⟩ | ⟨t, n, f, hn, hv, -, -, hy₀⟩ := finite_cases hy
  · rw [hu, hv, hx₀, hy₀, add_zero]
    cases s <;> cases t <;> exact rounds_zero _
  · have h : UnpackedFloat.add .binary64 x.toModel.unpack y.toModel.unpack = y.toModel.unpack := by
      rw [hu, hv]; rfl
    rw [h, pack_unpack_toModel, hx₀, zero_add]
    exact rounds_self hy
  · have h : UnpackedFloat.add .binary64 x.toModel.unpack y.toModel.unpack = x.toModel.unpack := by
      rw [hu, hv]; rfl
    rw [h, pack_unpack_toModel, hy₀, add_zero]
    exact rounds_self hx
  · rw [hu, hv, hx₀, hy₀]
    have hq : signed s (m * 2 ^ e) + signed t (n * 2 ^ f) =
        ((s.apply (decreaseExponent m e (min e f)).1 +
          t.apply (decreaseExponent n f (min e f)).1 : ℤ) : ℚ) * 2 ^ min e f := by
      rw [← cast_decreaseExponent m (min_le_left e f), ← cast_decreaseExponent n (min_le_right e f)]
      push_cast
      rw [apply_cast, apply_cast, add_mul]
      cases s <;> cases t <;> simp [signed]
    rw [hq]
    exact rounds_normalize _ _ _

theorem rounds_sub (hx : x.isFinite = true) (hy : y.isFinite = true) :
    Rounds (x - y) (value x - value y) := by
  rw [float_sub_eq_add_neg, sub_eq_add_neg, ← value_neg]
  exact rounds_add hx (by rwa [isFinite_neg])

end PolyEq.Binary64
