import PolyEq.Proofs.Binary64.Error
import PolyEq.Proofs.IntegerLike
import PolyEq.Proofs.Solution.ExactRoots
import PolyEq.Proofs.Solution.Magnitude

/-! # Fractions and their approximations

The fraction of an exact root is made of integers, its approximation of the floats that stand for
them. Numerators and denominators differ by little more than the tolerance, and no denominator is
smaller than one, so the quotients are close.
-/

namespace PolyEq

open Binary64

/-- The float is a number, and differs from `q` by at most `10 ^ -9` of it, or of one. -/
structure Approximates (x : Float) (q : ℚ) : Prop where
  isFinite : x.isFinite = true
  abs_sub_le : |value x - q| ≤ 1 / 10 ^ 9 * (1 + |q|)

namespace Solution

def Root.approximations : Root → List (ℚ × Float)
  | exact q x => [(q, x)]
  | decimal _ => []

def Pair.approximations : Pair → List (ℚ × Float)
  | exact p q x y => [(p, x), (q, y)]
  | decimal _ _ => []

def Roots.approximations : Roots → List (ℚ × Float)
  | double root => root.approximations
  | real _ pair => pair.approximations
  | complex _ _ _ => []

def approximations : Solution → List (ℚ × Float)
  | linear s => s.root.approximations
  | quadratic s => s.roots.approximations
  | _ => []

end Solution

variable {x y u : Float} {p q r n m a w : ℚ} {i j : ℤ}

theorem exists_denotes_of_toInteger? (h : toInteger? x = some i) :
    ∃ p, Denotes x p ∧ |p| ≤ 2 ^ 53 ∧ |p - i| ≤ 1 / 2 ^ 33 := by
  have hx := denotes_value (isFinite_of_toInteger? h)
  obtain ⟨hle, hlt⟩ := (toInteger?_eq_some_iff hx).mp h
  rw [abs_sub_comm] at hlt
  exact ⟨_, hx, hle, (hlt.trans tolerance_lt).le⟩

theorem abs_div_sub_div_le (hm : m ≠ 0) (hp : |p - n| ≤ (|m| + |n|) / 2 ^ 32)
    (hq : |q - m| ≤ |m| / 2 ^ 32) : q ≠ 0 ∧ |p / q - n / m| ≤ (1 + |n / m|) / 2 ^ 30 := by
  have hm0 : 0 < |m| := abs_pos.mpr hm
  have hqm : |m| * (1 - 1 / 2 ^ 32) ≤ |q| := by
    have := abs_sub_abs_le_abs_sub m q
    rw [abs_sub_comm] at this
    linarith
  have hq0 : 0 < |q| := lt_of_lt_of_le (mul_pos hm0 (by norm_num)) hqm
  have hq' : q ≠ 0 := abs_pos.mp hq0
  refine ⟨hq', ?_⟩
  set v := n / m with hv
  have hn : n = v * m := (div_mul_cancel₀ n hm).symm
  have hsplit : p / q - v = (p - n - v * (q - m)) / q := by
    rw [hn]
    field_simp
    ring
  have hvm : 0 ≤ |v| * |m| := by positivity
  have habs : |n| = |v| * |m| := by rw [← abs_mul, ← hn]
  rw [habs] at hp
  rw [hsplit, abs_div, div_le_iff₀ hq0]
  calc |p - n - v * (q - m)| ≤ |p - n| + |v| * |q - m| := by
        rw [← abs_mul]
        exact abs_sub _ _
    _ ≤ (|m| + |v| * |m|) / 2 ^ 32 + |v| * (|m| / 2 ^ 32) := by gcongr
    _ ≤ (1 + |v|) / 2 ^ 30 * (|m| * (1 - 1 / 2 ^ 32)) := by
        norm_num
        linarith
    _ ≤ (1 + |v|) / 2 ^ 30 * |q| := by gcongr

theorem approximates_div (hx : Denotes x p) (hy : Denotes y q) (hf : (x / y).isFinite = true)
    (hm : m ≠ 0) (hp : |p - n| ≤ (|m| + |n|) / 2 ^ 32) (hq : |q - m| ≤ |m| / 2 ^ 32) :
    Approximates (x / y) (n / m) := by
  obtain ⟨hq0, hle⟩ := abs_div_sub_div_le hm hp hq
  refine ⟨hf, ?_⟩
  have hr := abs_nearest_sub_le_add (p / q)
  rw [← (hx.rounds_div hy hq0).value_eq hf] at hr
  have hu : underflow ≤ 1 / 2 ^ 53 := zpow_le_one_div_two_pow (by norm_num)
  have htri := abs_sub_le (value (x / y)) (p / q) (n / m)
  have hsize := abs_add_le (p / q - n / m) (n / m)
  rw [sub_add_cancel] at hsize
  have hv := abs_nonneg (n / m)
  generalize |n / m| = v at *
  norm_num at *
  linarith

namespace Solution

theorem approximates_ofRatio (hf : (x / y).isFinite = true) :
    ∀ c ∈ (Root.ofRatio x y).approximations, Approximates c.2 c.1 := by
  obtain hroot | ⟨n, m, v, hn, hm, hr, hroot⟩ := ofRatio_cases x y <;> rw [hroot]
  · simp [Root.approximations]
  · obtain ⟨hm0, rfl⟩ := Fraction.toOption_reduce hr
    obtain ⟨p, hx, -, hp⟩ := exists_denotes_of_toInteger? hn
    obtain ⟨q, hy, -, hq⟩ := exists_denotes_of_toInteger? hm
    have h1 : (1 : ℚ) ≤ |(m : ℚ)| := by exact_mod_cast Int.one_le_abs hm0
    have hn0 := abs_nonneg (n : ℚ)
    simp only [Root.approximations, List.forall_mem_singleton]
    refine approximates_div hx hy hf (by exact_mod_cast hm0) (hp.trans ?_) (hq.trans ?_)
    · norm_num
      linarith
    · norm_num
      linarith

/-- One root of the root formula, `r` being the square root or its opposite. -/
theorem approximates_root (hx : toInteger? x = some i) (h0 : i ≠ 0) (hp : Representable p)
    (hr : Representable r) (hu : Rounds u (p + r)) (hn : |p + r - n| ≤ 2 / 2 ^ 33)
    (hf : (u / (2 * x)).isFinite = true) : Approximates (u / (2 * x)) (n / (2 * i)) := by
  obtain ⟨a, ha, hle, hi⟩ := exists_denotes_of_toInteger? hx
  have huf := isFinite_of_div hf
  have h2 : Denotes (2 * x) (2 * a) := by
    refine (denotes_two.rounds_mul ha).denotes_of_representable ha.representable.two_mul ?_
    rw [abs_mul, abs_two]
    calc 2 * |a| ≤ 2 * 2 ^ 53 := by gcongr
      _ = 2 ^ (54 : ℤ) := by norm_num
      _ < 2 ^ (1024 : ℤ) := zpow_lt_zpow_right₀ (by norm_num) (by norm_num)
  have h1 : (1 : ℚ) ≤ |(i : ℚ)| := by exact_mod_cast Int.one_le_abs h0
  have hround := hp.abs_nearest_add_sub_le hr
  have hsize := abs_add_le (p + r - n) n
  have htri := abs_sub_le (nearest (p + r)) (p + r) n
  have hn0 := abs_nonneg n
  rw [sub_add_cancel] at hsize
  refine approximates_div ⟨huf, hu.value_eq huf⟩ h2 hf (by simpa using h0) ?_ ?_
  · rw [abs_mul, abs_two]
    norm_num at hn hround ⊢
    linarith
  · rw [← mul_sub, abs_mul, abs_mul, abs_two]
    norm_num at hi ⊢
    linarith

theorem approximates_ofPositive (a b d : Float)
    (hf : ∀ v ∈ (Roots.ofPositive a b d).values, v.isFinite = true) :
    ∀ c ∈ (Roots.ofPositive a b d).approximations, Approximates c.2 c.1 := by
  simp only [values_ofPositive, List.forall_mem_cons] at hf
  obtain hroots | ⟨i, j, k, p, q, hi, hj, hk, hpair, hroots⟩ := ofPositive_cases a b d <;>
    rw [hroots]
  · simp [Roots.approximations, Pair.approximations]
  · obtain ⟨h0, rfl, rfl⟩ := eq_of_exactPair? hpair
    obtain ⟨y, hb, -, hy⟩ := exists_denotes_of_toInteger? hj
    obtain ⟨s, hs, -, hsk⟩ := exists_denotes_of_toInteger? hk
    have hsum : |-y + s - (-j + k)| ≤ 2 / 2 ^ 33 := by
      have htri := abs_sub (s - k) (y - j)
      rw [show -y + s - (-j + k) = s - k - (y - j) by ring]
      linarith
    have hdiff : |-y + -s - (-j + -k)| ≤ 2 / 2 ^ 33 := by
      have htri := abs_add_le (s - k) (y - j)
      rw [show -y + -s - (-j + -k) = -(s - k + (y - j)) by ring, abs_neg]
      linarith
    have hsub := hb.neg.rounds_sub hs
    rw [sub_eq_add_neg] at hsub
    simp only [Roots.approximations, Pair.approximations, List.forall_mem_cons]
    exact ⟨approximates_root hi h0 hb.neg.representable hs.representable (hb.neg.rounds_add hs)
        hsum hf.2.1,
      approximates_root hi h0 hb.neg.representable hs.representable.neg hsub hdiff hf.2.2.1,
      by simp⟩

theorem approximates_ofCoefficients (a b c d : Float)
    (hf : ∀ v ∈ (Roots.ofCoefficients a b c d).values, v.isFinite = true) :
    ∀ v ∈ (Roots.ofCoefficients a b c d).approximations, Approximates v.2 v.1 := by
  unfold Roots.ofCoefficients at *
  split_ifs at * with h0 hpos
  · refine approximates_ofRatio (hf _ ?_)
    simp [Roots.values]
  · exact approximates_ofPositive a b d hf
  · simp [Roots.ofNegative, Roots.approximations]

end Solution

namespace Equation

/-- Each exact root of an equation is within `10 ^ -9` of the float beside it. -/
theorem approximates_solve (e : Equation) :
    ∀ c ∈ e.solve.approximations, Approximates c.2 c.1 := by
  have hsolved := Solution.solved_solve e
  generalize e.solve = solution at hsolved ⊢
  cases hsolved with
  | linear hd hf =>
    simp only [Solution.isFinite, Solution.values, List.all_cons, Bool.and_eq_true] at hf
    refine Solution.approximates_ofRatio ?_
    simpa [Solution.Linear.ofEquation] using hf.2.2.1
  | quadratic hd hf =>
    simp only [Solution.isFinite, Solution.values, List.all_cons, Bool.and_eq_true,
      List.all_eq_true] at hf
    exact Solution.approximates_ofCoefficients _ _ _ _ hf.2.2.2.2
  | allReals | noSolution | outOfRange | unsolvable => simp [Solution.approximations]

/-- The leading coefficient `1.00000000001` stands for `1`, and one of the roots for `2`. -/
theorem approximates_near_integer : ∃ e c,
    e = run [.add ⟨1.00000000001, 2⟩ .left, .add ⟨-3, 1⟩ .left, .add ⟨2, 0⟩ .left] ∧
      c ∈ e.solve.approximations ∧ c.1 = 2 ∧ value c.2 ≠ 2 ∧ Approximates c.2 c.1 := by
  obtain ⟨e, he⟩ : ∃ e, e =
      run [.add ⟨1.00000000001, 2⟩ .left, .add ⟨-3, 1⟩ .left, .add ⟨2, 0⟩ .left] := ⟨_, rfl⟩
  have h : ∃ c ∈ e.solve.approximations, c.1 = 2 ∧ value c.2 ≠ 2 := by
    rw [he]
    decide +kernel
  obtain ⟨c, hc, h2, hne⟩ := h
  exact ⟨e, c, he, hc, h2, hne, approximates_solve e c hc⟩

end Equation

end PolyEq
