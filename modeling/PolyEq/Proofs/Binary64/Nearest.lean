import Mathlib.Algebra.Order.Floor.Ring
import Mathlib.Algebra.Order.Round
import Mathlib.Data.Int.Log
import Mathlib.Data.Rat.Floor
import Mathlib.Tactic.FieldSimp
import Mathlib.Tactic.Linarith
import Mathlib.Tactic.Positivity
import Mathlib.Tactic.Ring

/-! # Rounding to the binary64 grid

Binary64 numbers without their range are the integers of at most 53 bits times a power of two
that is not below `2 ^ (-1074)`. Rounding takes a rational to the nearest of them, a tie going to
the even significand. It is monotone, odd, and fixes every number of the grid.
-/

namespace PolyEq.Binary64

/-- The nearest integer, a half going to the even neighbour. -/
def halfEven (y : ℚ) : ℤ :=
  if y - ⌊y⌋ < 1 / 2 then ⌊y⌋
  else if 1 / 2 < y - ⌊y⌋ then ⌊y⌋ + 1
  else if Even ⌊y⌋ then ⌊y⌋ else ⌊y⌋ + 1

variable {y z r : ℚ} {n e : ℤ}

theorem abs_halfEven_sub_le (y : ℚ) : |halfEven y - y| ≤ 1 / 2 := by
  have hl := Int.floor_le y
  have hu := Int.lt_floor_add_one y
  unfold halfEven
  split_ifs <;> rw [abs_le] <;> push_cast <;> constructor <;> linarith

theorem even_halfEven_of_tie (h : |halfEven y - y| = 1 / 2) : Even (halfEven y) := by
  have hl := Int.floor_le y
  have hu := Int.lt_floor_add_one y
  unfold halfEven at h ⊢
  split_ifs at h ⊢ with h₁ h₂ h₃
  · rw [abs_sub_comm, abs_of_nonneg (by linarith)] at h
    linarith
  · push_cast at h
    rw [abs_of_nonneg (by linarith)] at h
    linarith
  · exact h₃
  · exact Int.even_add_one.mpr h₃

theorem eq_of_abs_sub_lt_one {m : ℤ} (h : |(m : ℚ) - n| < 1) : m = n := by
  have hi : |m - n| < 1 := by exact_mod_cast h
  exact sub_eq_zero.mp (Int.abs_lt_one_iff.mp hi)

theorem eq_of_abs_sub_le_half {m : ℤ} (hm : |m - y| ≤ 1 / 2) (hn : |n - y| ≤ 1 / 2)
    (heven : |m - y| = 1 / 2 → |n - y| = 1 / 2 → Even m ∧ Even n) : m = n := by
  by_contra hne
  have hd : (1 : ℚ) ≤ |(m : ℚ) - n| := by
    exact_mod_cast Int.one_le_abs (sub_ne_zero.mpr hne)
  have ht : |(m : ℚ) - n| ≤ |m - y| + |n - y| := by
    rw [abs_sub_comm (n : ℚ) y]
    exact abs_sub_le (m : ℚ) y n
  obtain ⟨⟨a, rfl⟩, ⟨b, rfl⟩⟩ := heven (by linarith) (by linarith)
  have hd' : |(((a + a : ℤ) : ℚ)) - ((b + b : ℤ) : ℚ)| ≤ 1 := by linarith
  have hi : |(a + a) - (b + b)| ≤ 1 := by exact_mod_cast hd'
  rw [abs_le] at hi
  omega

theorem halfEven_eq (hn : |n - y| ≤ 1 / 2) (heven : |n - y| = 1 / 2 → Even n) :
    halfEven y = n :=
  eq_of_abs_sub_le_half (abs_halfEven_sub_le y) hn fun h h' => ⟨even_halfEven_of_tie h, heven h'⟩

theorem halfEven_of_abs_lt (hn : |n - y| < 1 / 2) : halfEven y = n :=
  halfEven_eq hn.le fun h => absurd h hn.ne

theorem halfEven_of_even (hn : |n - y| ≤ 1 / 2) (heven : Even n) : halfEven y = n :=
  halfEven_eq hn fun _ => heven

@[simp] theorem halfEven_intCast (n : ℤ) : halfEven n = n :=
  halfEven_of_abs_lt (by norm_num)

@[simp] theorem halfEven_zero : halfEven 0 = 0 := by
  simpa using halfEven_intCast 0

theorem halfEven_neg (y : ℚ) : halfEven (-y) = -halfEven y := by
  have h : |((-halfEven y : ℤ) : ℚ) - -y| = |halfEven y - y| := by
    push_cast
    rw [← abs_neg]
    congr 1
    ring
  refine halfEven_eq (h ▸ abs_halfEven_sub_le y) fun ht => ?_
  rw [h] at ht
  exact (even_halfEven_of_tie ht).neg

theorem abs_halfEven_sub_le_abs (y : ℚ) (n : ℤ) : |halfEven y - y| ≤ |n - y| := by
  by_cases h : |n - y| < 1 / 2
  · rw [halfEven_of_abs_lt h]
  · exact (abs_halfEven_sub_le y).trans (not_lt.mp h)

/-- The exponent of the unit in the last place. -/
def grid (y : ℚ) : ℤ :=
  if y = 0 then -1074 else max (Int.log 2 |y| - 52) (-1074)

def ulp (y : ℚ) : ℚ :=
  2 ^ grid y

/-- The nearest number of the grid, a tie going to the even significand. -/
def nearest (y : ℚ) : ℚ :=
  halfEven (y / ulp y) * ulp y

def Representable (r : ℚ) : Prop :=
  ∃ m e : ℤ, |m| ≤ 2 ^ 53 ∧ -1074 ≤ e ∧ r = m * 2 ^ e

theorem ulp_pos (y : ℚ) : 0 < ulp y :=
  zpow_pos (by norm_num) _

theorem grid_neg (y : ℚ) : grid (-y) = grid y := by
  simp only [grid, abs_neg, neg_eq_zero]

theorem ulp_neg (y : ℚ) : ulp (-y) = ulp y := by
  rw [ulp, grid_neg, ulp]

theorem nearest_neg (y : ℚ) : nearest (-y) = -nearest y := by
  rw [nearest, ulp_neg, neg_div, halfEven_neg]
  push_cast
  rw [nearest, neg_mul]

@[simp] theorem nearest_zero : nearest 0 = 0 := by
  simp [nearest]

theorem le_grid (y : ℚ) : -1074 ≤ grid y := by
  unfold grid
  split_ifs <;> simp

theorem abs_lt_ulp (y : ℚ) : |y| < 2 ^ 53 * ulp y := by
  by_cases hy : y = 0
  · subst hy
    simpa using ulp_pos 0
  · calc |y| < (2 : ℚ) ^ (Int.log 2 |y| + 1) := by
          exact_mod_cast Int.lt_zpow_succ_log_self (by norm_num : 1 < 2) |y|
      _ ≤ 2 ^ (53 + grid y) := by
          refine zpow_le_zpow_right₀ (by norm_num) ?_
          rw [grid, if_neg hy]
          omega
      _ = 2 ^ 53 * ulp y := by rw [zpow_add₀ (by norm_num), ulp]; norm_cast

/-- Above the bottom of the grid the significand has all of its 53 bits. -/
theorem ulp_le_abs (h : -1074 < grid y) : 2 ^ 52 * ulp y ≤ |y| := by
  by_cases hy : y = 0
  · simp [grid, hy] at h
  · rw [grid, if_neg hy] at h
    calc 2 ^ 52 * ulp y = 2 ^ (52 + grid y) := by
          rw [zpow_add₀ (by norm_num), ulp]; norm_cast
      _ = 2 ^ Int.log 2 |y| := by rw [grid, if_neg hy]; congr 1; omega
      _ ≤ |y| := by
          exact_mod_cast Int.zpow_log_le_self (by norm_num : 1 < 2) (abs_pos.mpr hy)

theorem grid_le (h : |y| < 2 ^ (e + 53)) (he : -1074 ≤ e) : grid y ≤ e := by
  unfold grid
  split_ifs with hy
  · exact he
  · have hl : Int.log 2 |y| < e + 53 :=
      (Int.lt_zpow_iff_log_lt (by norm_num) (abs_pos.mpr hy)).mp (by exact_mod_cast h)
    omega

theorem le_grid_of_le_abs (h : 2 ^ (e + 52) ≤ |y|) : e ≤ grid y := by
  have hp : 0 < |y| := lt_of_lt_of_le (zpow_pos (by norm_num) _) h
  have hl : e + 52 ≤ Int.log 2 |y| :=
    (Int.zpow_le_iff_le_log (by norm_num) hp).mp (by exact_mod_cast h)
  rw [grid, if_neg (abs_pos.mp hp)]
  omega

theorem ulp_le (h : |y| < 2 ^ (e + 53)) (he : -1074 ≤ e) : ulp y ≤ 2 ^ e :=
  zpow_le_zpow_right₀ (by norm_num) (grid_le h he)

theorem ulp_le_div {k : ℕ} (h : |y| < 2 ^ k) : ulp y ≤ 2 ^ k / 2 ^ 53 := by
  have hk : (2 : ℚ) ^ k / 2 ^ 53 = 2 ^ ((k : ℤ) - 53) := by
    rw [zpow_sub₀ (by norm_num)]
    norm_cast
  rw [hk]
  exact ulp_le (by rwa [sub_add_cancel, zpow_natCast]) (by omega)

theorem abs_mul_ulp_sub (y : ℚ) (n : ℤ) : |n * ulp y - y| = |n - y / ulp y| * ulp y := by
  conv_rhs => rw [← abs_of_pos (ulp_pos y)]
  rw [← abs_mul, abs_of_pos (ulp_pos y), sub_mul, div_mul_cancel₀ _ (ulp_pos y).ne']

theorem abs_nearest_sub_le (y : ℚ) : |nearest y - y| ≤ ulp y / 2 := by
  rw [nearest, abs_mul_ulp_sub]
  have h := mul_le_mul_of_nonneg_right (abs_halfEven_sub_le (y / ulp y)) (ulp_pos y).le
  linarith

theorem abs_nearest_sub_le_of_multiple (y : ℚ) (n : ℤ) : |nearest y - y| ≤ |n * ulp y - y| := by
  rw [nearest, abs_mul_ulp_sub, abs_mul_ulp_sub]
  exact mul_le_mul_of_nonneg_right (abs_halfEven_sub_le_abs _ n) (ulp_pos y).le

theorem nearest_eq_of_abs_le (h : |n * ulp y - y| ≤ ulp y / 2)
    (heven : |n * ulp y - y| = ulp y / 2 → Even n) : nearest y = n * ulp y := by
  have hu := ulp_pos y
  rw [abs_mul_ulp_sub] at h heven
  rw [nearest, halfEven_eq (n := n)]
  · exact le_of_mul_le_mul_right (by linarith) hu
  · intro ht
    exact heven (by rw [ht]; ring)

theorem Representable.multiple_or_small (hr : Representable r) (y : ℚ) :
    (∃ n : ℤ, r = n * ulp y) ∨ -1074 < grid y ∧ |r| ≤ 2 ^ 52 * ulp y := by
  obtain ⟨m, e, hm, he, rfl⟩ := hr
  by_cases h : grid y ≤ e
  · left
    refine ⟨m * 2 ^ (e - grid y).toNat, ?_⟩
    have hk : (2 : ℚ) ^ e = 2 ^ (e - grid y).toNat * 2 ^ grid y := by
      rw [← zpow_natCast, ← zpow_add₀ (by norm_num)]
      congr 1
      omega
    rw [ulp, hk]
    push_cast
    ring
  · right
    refine ⟨by omega, ?_⟩
    have hm' : |(m : ℚ)| ≤ 2 ^ 53 := by exact_mod_cast hm
    have hp : (2 : ℚ) ^ e ≤ 2 ^ (grid y - 1) := zpow_le_zpow_right₀ (by norm_num) (by omega)
    have hz : (0 : ℚ) < 2 ^ e := zpow_pos (by norm_num) _
    rw [abs_mul, abs_of_pos hz]
    calc |(m : ℚ)| * 2 ^ e ≤ 2 ^ 53 * 2 ^ (grid y - 1) := by gcongr
      _ = 2 ^ 52 * ulp y := by rw [zpow_sub_one₀ (by norm_num), ulp]; ring

theorem Representable.abs_nearest_sub_le (hr : Representable r) (y : ℚ) :
    |nearest y - y| ≤ |r - y| := by
  rcases hr.multiple_or_small y with ⟨n, rfl⟩ | ⟨hg, hs⟩
  · exact abs_nearest_sub_le_of_multiple y n
  · have hy := ulp_le_abs hg
    -- the end of the binade towards zero lies between `r` and `y`
    rcases le_or_gt 0 y with h0 | h0
    · rw [abs_of_nonneg h0] at hy
      refine (abs_nearest_sub_le_of_multiple y (2 ^ 52)).trans ?_
      push_cast
      rw [abs_le] at hs
      rw [abs_of_nonpos (by linarith), abs_of_nonpos (by linarith)]
      linarith
    · rw [abs_of_neg h0] at hy
      refine (abs_nearest_sub_le_of_multiple y (-2 ^ 52)).trans ?_
      push_cast
      rw [abs_le] at hs
      rw [abs_of_nonneg (by linarith), abs_of_nonneg (by linarith)]
      linarith

theorem nearest_of_representable (hr : Representable r) : nearest r = r := by
  have h := hr.abs_nearest_sub_le r
  rw [sub_self, abs_zero] at h
  exact sub_eq_zero.mp (abs_nonpos_iff.mp h)

/-- Rounding can carry the significand to `2 ^ 53` and no further. -/
theorem abs_significand_le (y : ℚ) : |halfEven (y / ulp y)| ≤ 2 ^ 53 := by
  have hu := ulp_pos y
  have hy : |y / ulp y| < 2 ^ 53 := by
    rw [abs_div, abs_of_pos hu, div_lt_iff₀ hu]
    exact abs_lt_ulp y
  have h : |((halfEven (y / ulp y) : ℤ) : ℚ)| < (2 ^ 53 + 1 : ℤ) := by
    have h₁ := abs_halfEven_sub_le (y / ulp y)
    rw [abs_le] at h₁
    rw [abs_lt] at hy ⊢
    push_cast
    constructor <;> linarith
  have h' : |halfEven (y / ulp y)| < 2 ^ 53 + 1 := by exact_mod_cast h
  omega

theorem le_significand (hy : 0 ≤ y) (h : -1074 < grid y) : 2 ^ 52 ≤ halfEven (y / ulp y) := by
  have hu := ulp_pos y
  have h₁ : 2 ^ 52 ≤ y / ulp y := by
    rw [le_div_iff₀ hu]
    simpa only [abs_of_nonneg hy] using ulp_le_abs h
  have h₂ := (abs_le.mp (abs_halfEven_sub_le (y / ulp y))).1
  have h₃ : ((2 ^ 52 - 1 : ℤ) : ℚ) < halfEven (y / ulp y) := by push_cast; linarith
  have h₄ : 2 ^ 52 - 1 < halfEven (y / ulp y) := by exact_mod_cast h₃
  omega

theorem representable_nearest (y : ℚ) : Representable (nearest y) :=
  ⟨halfEven (y / ulp y), grid y, abs_significand_le y, le_grid y, rfl⟩

theorem nearest_mono (h : y ≤ z) : nearest y ≤ nearest z := by
  by_contra hlt
  rw [not_le] at hlt
  rcases h.eq_or_lt with rfl | h
  · exact lt_irrefl _ hlt
  -- each of the two would be nearer to the other's argument
  have hy := (representable_nearest z).abs_nearest_sub_le y
  have hz := (representable_nearest y).abs_nearest_sub_le z
  rw [← sq_le_sq] at hy hz
  nlinarith [mul_pos (sub_pos.mpr hlt) (sub_pos.mpr h)]

theorem le_nearest (hr : Representable r) (h : r ≤ y) : r ≤ nearest y :=
  nearest_of_representable hr ▸ nearest_mono h

theorem nearest_le (hr : Representable r) (h : y ≤ r) : nearest y ≤ r :=
  nearest_of_representable hr ▸ nearest_mono h

theorem representable_zero : Representable 0 :=
  ⟨0, 0, by norm_num, by norm_num, by norm_num⟩

theorem nearest_nonneg (h : 0 ≤ y) : 0 ≤ nearest y :=
  le_nearest representable_zero h

theorem abs_nearest (y : ℚ) : |nearest y| = nearest |y| := by
  rcases le_total 0 y with h | h
  · rw [abs_of_nonneg h, abs_of_nonneg (nearest_nonneg h)]
  · rw [abs_of_nonpos h, nearest_neg, abs_of_nonpos]
    exact nearest_le representable_zero h

theorem Representable.neg (hr : Representable r) : Representable (-r) := by
  obtain ⟨m, e, hm, he, rfl⟩ := hr
  exact ⟨-m, e, by rwa [abs_neg], he, by push_cast; ring⟩

theorem Representable.two_mul (hr : Representable r) : Representable (2 * r) := by
  obtain ⟨m, e, hm, he, rfl⟩ := hr
  refine ⟨m, e + 1, hm, by omega, ?_⟩
  rw [zpow_add_one₀ (by norm_num)]
  ring

theorem representable_intCast (h : |n| ≤ 2 ^ 53) : Representable n :=
  ⟨n, 0, h, by norm_num, by simp⟩

theorem representable_zpow (he : -1074 ≤ e) : Representable (2 ^ e) :=
  ⟨1, e, by norm_num, he, by simp⟩

theorem representable_two_pow (k : ℕ) : Representable (2 ^ k) := by
  rw [← zpow_natCast]
  exact representable_zpow (by omega)

theorem abs_nearest_le {k : ℕ} (h : |y| ≤ 2 ^ k) : |nearest y| ≤ 2 ^ k := by
  rw [abs_nearest]
  exact nearest_le (representable_two_pow k) h

theorem abs_nearest_sub_le_mul (h : 2 ^ (-1022 : ℤ) ≤ |y|) :
    |nearest y - y| ≤ |y| / 2 ^ 53 := by
  refine (abs_nearest_sub_le y).trans ?_
  have hg : 2 ^ 52 * ulp y ≤ |y| := by
    by_cases hg : -1074 < grid y
    · exact ulp_le_abs hg
    · have he : grid y = -1074 := le_antisymm (not_lt.mp hg) (le_grid y)
      rw [ulp, he, ← zpow_natCast (2 : ℚ) 52, ← zpow_add₀ (by norm_num)]
      exact h
  rw [div_le_div_iff₀ (by norm_num) (by norm_num)]
  linarith

theorem Representable.multiple (hr : Representable r) (h : 2 ^ (e + 52) ≤ |r|) :
    ∃ m : ℤ, r = m * 2 ^ e := by
  obtain ⟨m, f, hm, -, rfl⟩ := hr
  have hpow {f : ℤ} (hf : e ≤ f) (m : ℤ) : ∃ m' : ℤ, (m : ℚ) * 2 ^ f = m' * 2 ^ e := by
    refine ⟨m * 2 ^ (f - e).toNat, ?_⟩
    have hk : (2 : ℚ) ^ f = 2 ^ (f - e).toNat * 2 ^ e := by
      rw [← zpow_natCast, ← zpow_add₀ (by norm_num)]
      congr 1
      omega
    rw [hk]
    push_cast
    ring
  rcases le_or_gt e f with hf | hf
  · exact hpow hf m
  -- the significand is too small unless it is at its limit
  have hz : (0 : ℚ) < 2 ^ f := zpow_pos (by norm_num) _
  have hp : (2 : ℚ) ^ (e + 52) = 2 ^ 53 * 2 ^ (e - 1) := by
    rw [← zpow_natCast, ← zpow_add₀ (by norm_num)]
    congr 1
    push_cast
    ring
  have hle : (2 : ℚ) ^ f ≤ 2 ^ (e - 1) := zpow_le_zpow_right₀ (by norm_num) (by omega)
  have hm' : |(m : ℚ)| ≤ 2 ^ 53 := by exact_mod_cast hm
  rw [abs_mul, abs_of_pos hz, hp] at h
  have hf : (2 : ℚ) ^ f = 2 ^ (e - 1) := by nlinarith
  have hm53 : |(m : ℚ)| = 2 ^ 53 := by
    refine le_antisymm hm' (le_of_mul_le_mul_right ?_ hz)
    rwa [hf] at h ⊢
  have hv : (m : ℚ) * 2 ^ f = m / 2 * 2 ^ e := by
    rw [hf, zpow_sub_one₀ (by norm_num)]
    ring
  rcases (abs_eq (by norm_num)).mp hm53 with h53 | h53
  · exact ⟨2 ^ 52, by rw [hv, h53]; norm_num⟩
  · exact ⟨-2 ^ 52, by rw [hv, h53]; norm_num⟩

theorem nearest_eq_two_mul {k : ℕ} (hk : k ≤ 52) (hl : 2 ^ k ≤ y) (hu : y < 2 ^ (k + 1))
    (h : |2 * n - y| ≤ 2 ^ k / 2 ^ 53) : nearest y = 2 * n := by
  have hy : 0 < y := lt_of_lt_of_le (by positivity) hl
  have hg : grid y = k - 52 := by
    refine le_antisymm (grid_le ?_ (by omega)) (le_grid_of_le_abs ?_) <;> rw [abs_of_pos hy]
    · rw [show ((k : ℤ) - 52 + 53) = ((k + 1 : ℕ) : ℤ) by push_cast; ring, zpow_natCast]
      exact hu
    · rw [sub_add_cancel, zpow_natCast]
      exact hl
  have hulp : ulp y = 2 ^ k / 2 ^ 52 := by
    rw [ulp, hg, zpow_sub₀ (by norm_num)]
    norm_cast
  have hn : (2 * n : ℚ) = (2 * (n * 2 ^ (52 - k)) : ℤ) * ulp y := by
    have hp : (2 : ℚ) ^ (52 - k) * 2 ^ k = 2 ^ 52 := by
      rw [← pow_add, Nat.sub_add_cancel hk]
    rw [hulp]
    push_cast
    field_simp
    rw [mul_assoc, hp, mul_comm]
  rw [hn] at h ⊢
  refine nearest_eq_of_abs_le (h.trans ?_) fun _ => even_two_mul _
  rw [hulp]
  linarith

end PolyEq.Binary64
