import PolyEq.Fraction
import Mathlib.Algebra.Ring.Int.Parity
import Mathlib.Data.Nat.GCD.Basic
import Mathlib.Data.Nat.Prime.Basic
import Mathlib.Data.Rat.Lemmas
import Mathlib.Tactic.Linarith
import Mathlib.Tactic.NormNum
import Mathlib.Tactic.Ring

/-! # Fractions in range

Lowest terms are not larger than the parts they come from, so a fraction of small integers is
never refused. Of all 64-bit integers, only a quotient in which the least one loses its sign and
stays undivided is refused.
-/

namespace PolyEq

namespace Fraction

variable {n d m : ℤ} {k : ℕ} {q : ℚ}

theorem fitsWord_iff : fitsWord n = true ↔ -2 ^ 63 ≤ n ∧ n ≤ 2 ^ 63 - 1 := by
  have hmin : Int64.minValue.toInt = -2 ^ 63 := by decide
  have hmax : Int64.maxValue.toInt = 2 ^ 63 - 1 := by decide
  rw [fitsWord, Bool.and_eq_true, decide_eq_true_iff, decide_eq_true_iff, hmin, hmax]

theorem natAbs_num_le (n : ℤ) (h0 : d ≠ 0) : (Rat.divInt n d).num.natAbs ≤ n.natAbs := by
  rcases eq_or_ne n 0 with rfl | hn0
  · simp
  · have hdvd := Int.natAbs_dvd_natAbs.mpr (Rat.num_dvd n h0)
    exact Nat.le_of_dvd (Int.natAbs_pos.mpr hn0) hdvd

theorem natAbs_den_le (n : ℤ) (h0 : d ≠ 0) : (Rat.divInt n d).den ≤ d.natAbs := by
  have hdvd := Int.natAbs_dvd_natAbs.mpr (Rat.den_dvd n d)
  exact Nat.le_of_dvd (Int.natAbs_pos.mpr h0) hdvd

theorem reduce_eq (h0 : d ≠ 0) : reduce n d =
    if fitsWord (Rat.divInt n d).num && fitsWord (Rat.divInt n d).den then .ok (Rat.divInt n d)
    else .error (.overflow n d) := by
  unfold reduce
  rw [if_neg h0]

theorem reduce_eq_ok (hn : |n| < 2 ^ 63) (hd : |d| < 2 ^ 63) (h0 : d ≠ 0) :
    reduce n d = .ok (n / d) := by
  simp only [abs_lt] at hn hd
  have hnum : (Rat.divInt n d).num.natAbs < 2 ^ 63 := by
    have hle := natAbs_num_le n h0
    omega
  have hden : (Rat.divInt n d).den < 2 ^ 63 := by
    have hle := natAbs_den_le n h0
    omega
  rw [reduce_eq h0, if_pos, Rat.divInt_eq_div]
  simp only [Bool.and_eq_true, fitsWord_iff]
  omega

theorem reduce_two_mul (hn : |n| < 2 ^ 63) (hd : |d| < 2 ^ 62) (h0 : d ≠ 0) :
    reduce n (2 * d) = .ok (n / (2 * d)) := by
  rw [reduce_eq_ok hn (by rw [abs_lt] at hd ⊢; omega) (by omega)]
  push_cast
  rfl

theorem reduce_ok (h : reduce n d = .ok q) : d ≠ 0 ∧ q = n / d := by
  unfold reduce at h
  dsimp only at h
  split_ifs at h with h0 hfit
  · cases h
    exact ⟨h0, Rat.divInt_eq_div _ _⟩

theorem toOption_reduce (h : (reduce n d).toOption = some q) : d ≠ 0 ∧ q = n / d := by
  cases hr : reduce n d with
  | error err => rw [hr] at h; cases h
  | ok r =>
    rw [hr] at h
    cases h
    exact reduce_ok hr

/-- The quotients of two words that do not fit in lowest terms: the least word loses its sign, and
no factor of two is cancelled. -/
def Overflows (n d : ℤ) : Prop :=
  n = -2 ^ 63 ∧ d < 0 ∧ Odd d ∨ d = -2 ^ 63 ∧ Odd n

theorem Overflows.ne_zero (h : Overflows n d) : n ≠ 0 ∧ d ≠ 0 := by
  rcases h with ⟨rfl, hneg, -⟩ | ⟨rfl, hodd⟩
  · exact ⟨by norm_num, hneg.ne⟩
  · refine ⟨?_, by norm_num⟩
    rintro rfl
    exact absurd hodd (by decide)

theorem exists_factor (n : ℤ) (h0 : d ≠ 0) : ∃ m : ℤ, m ≠ 0 ∧
    n = (Rat.divInt n d).num * m ∧ d = (Rat.divInt n d).den * m :=
  Rat.divInt_num_den (c := (Rat.divInt n d).reduced) h0 rfl

theorem num_mul_eq (n : ℤ) (h0 : d ≠ 0) :
    (Rat.divInt n d).num * d = n * (Rat.divInt n d).den := by
  obtain ⟨m, -, hnum, hden⟩ := exists_factor n h0
  generalize (Rat.divInt n d).num = p at *
  generalize (Rat.divInt n d).den = k at *
  rw [hnum, hden]
  ring

theorem eq_one_or_of_dvd_two_pow (hm : m ∣ 2 ^ 63) (hodd : Odd m) : m = 1 ∨ m = -1 := by
  have hdvd : m.natAbs ∣ 2 ^ 63 := by simpa using Int.natAbs_dvd_natAbs.mpr hm
  have hcoprime : m.natAbs.Coprime (2 ^ 63) :=
    (Nat.coprime_two_left.mpr (Int.natAbs_odd.mpr hodd)).symm.pow_right 63
  exact Int.natAbs_eq_iff.mp (hcoprime.eq_one_of_dvd hdvd)

theorem odd_of_coprime (h : (2 ^ 63 : ℕ).Coprime k) : Odd k :=
  Nat.coprime_two_left.mp ((Nat.coprime_pow_left_iff (by norm_num) 2 k).mp h)

theorem fitsWord_num_iff (hn : fitsWord n = true) (h0 : d ≠ 0) :
    fitsWord (Rat.divInt n d).num = true ↔ ¬ (n = -2 ^ 63 ∧ d < 0 ∧ Odd d) := by
  obtain ⟨m, hm, hnum, hden⟩ := exists_factor n h0
  have hpos := (Rat.divInt n d).den_pos
  have hle := natAbs_num_le n h0
  have hcoprime := (Rat.divInt n d).reduced
  generalize (Rat.divInt n d).num = p at *
  generalize (Rat.divInt n d).den = k at *
  rw [fitsWord_iff] at hn ⊢
  constructor
  · rintro hp ⟨rfl, hneg, hodd⟩
    have hdvd : m ∣ 2 ^ 63 := ⟨-p, by linarith⟩
    rw [hden, Int.odd_mul] at hodd
    rcases eq_one_or_of_dvd_two_pow hdvd hodd.2 with rfl | rfl <;> omega
  · intro h
    by_contra hp
    obtain rfl : p = 2 ^ 63 := by omega
    obtain rfl : m = -1 := by omega
    have hodd : Odd k := odd_of_coprime hcoprime
    refine h ⟨by omega, by omega, ?_⟩
    rw [hden, mul_neg_one, odd_neg]
    exact_mod_cast hodd

theorem fitsWord_den_iff (hd : fitsWord d = true) (h0 : d ≠ 0) :
    fitsWord (Rat.divInt n d).den = true ↔ ¬ (d = -2 ^ 63 ∧ Odd n) := by
  obtain ⟨m, hm, hnum, hden⟩ := exists_factor n h0
  have hpos := (Rat.divInt n d).den_pos
  have hle := natAbs_den_le n h0
  have hcoprime := (Rat.divInt n d).reduced
  generalize (Rat.divInt n d).num = p at *
  generalize (Rat.divInt n d).den = k at *
  rw [fitsWord_iff] at hd ⊢
  constructor
  · rintro hk ⟨rfl, hodd⟩
    have hdvd : m ∣ 2 ^ 63 := ⟨-k, by linarith⟩
    rw [hnum, Int.odd_mul] at hodd
    rcases eq_one_or_of_dvd_two_pow hdvd hodd.2 with rfl | rfl <;> omega
  · intro h
    by_contra hk
    obtain rfl : k = 2 ^ 63 := by omega
    obtain rfl : m = -1 := by omega
    have hodd : Odd p := Int.natAbs_odd.mp (odd_of_coprime hcoprime.symm)
    refine h ⟨by omega, ?_⟩
    rwa [hnum, mul_neg_one, odd_neg]

theorem fitsWord_and_iff (hn : fitsWord n = true) (hd : fitsWord d = true) (h0 : d ≠ 0) :
    (fitsWord (Rat.divInt n d).num && fitsWord (Rat.divInt n d).den) = true ↔
      ¬ Overflows n d := by
  rw [Bool.and_eq_true, fitsWord_num_iff hn h0, fitsWord_den_iff hd h0, Overflows, not_or]

/-- Two words have a quotient in lowest terms with a positive denominator, unless the denominator
is zero or the quotient is one of those that do not fit. -/
theorem reduce_of_fitsWord (hn : fitsWord n = true) (hd : fitsWord d = true) :
    (reduce n d = .error .zeroDenominator ↔ d = 0) ∧
    (reduce n d = .error (.overflow n d) ↔ Overflows n d) ∧
    (n = 0 → d ≠ 0 → reduce n d = .ok 0) ∧
    (d ≠ 0 → ¬ Overflows n d → ∃ q : ℚ, reduce n d = .ok q ∧ fitsWord q.num = true ∧
      fitsWord q.den = true ∧ 0 < q.den ∧ q.num.gcd q.den = 1 ∧ q.num * d = n * q.den) := by
  by_cases h0 : d = 0
  · subst h0
    have hzero : reduce n 0 = .error .zeroDenominator := rfl
    have hover : ¬ Overflows n 0 := fun h => h.ne_zero.2 rfl
    rw [hzero]
    simp [hover]
  have hfit := fitsWord_and_iff hn hd h0
  rw [reduce_eq h0]
  by_cases hover : Overflows n d
  · have hn0 := hover.ne_zero.1
    rw [if_neg (mt hfit.mp (not_not.mpr hover))]
    simp [h0, hn0, hover]
  · obtain ⟨hnum, hden⟩ := Bool.and_eq_true_iff.mp (hfit.mpr hover)
    rw [if_pos (hfit.mpr hover)]
    refine ⟨by simp [h0], by simp [hover], ?_, ?_⟩
    · rintro rfl -
      simp
    · rintro - -
      exact ⟨_, rfl, hnum, hden, Rat.den_pos _, Rat.reduced _, num_mul_eq n h0⟩

/-- The least word divided by `-6` has a quotient, as a factor of two is cancelled. -/
theorem reduce_least_neg_six : fitsWord (-2 ^ 63) = true ∧ fitsWord (-6) = true ∧
    ∃ q : ℚ, reduce (-2 ^ 63) (-6) = .ok q ∧ q.num.gcd q.den = 1 ∧
      q.num * -6 = -2 ^ 63 * q.den := by
  have hover : ¬ Overflows (-2 ^ 63) (-6) := by
    rintro (⟨-, -, hodd⟩ | ⟨h, -⟩)
    · exact absurd hodd (by decide)
    · exact absurd h (by norm_num)
  obtain ⟨-, -, -, hreduce⟩ := reduce_of_fitsWord (n := -2 ^ 63) (d := -6) (by decide) (by decide)
  obtain ⟨q, hq, -, -, -, hgcd, hmul⟩ := hreduce (by norm_num) hover
  exact ⟨by decide, by decide, q, hq, hgcd, hmul⟩

end Fraction

end PolyEq
