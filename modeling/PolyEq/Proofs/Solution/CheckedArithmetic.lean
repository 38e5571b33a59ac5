import PolyEq.Proofs.IntegerLike
import PolyEq.Proofs.Solution.ExactRoots
import PolyEq.Proofs.Solution.Magnitude

/-! # Checked integer arithmetic

Exact forms are worked out in 64-bit integers, and a fraction that cannot be reduced is left out
without a word. Here is the same computation with every integer checked and every refusal kept.
It never stops: the integers are small, and no leading coefficient stands for zero. So an exact
form is there whenever all the values that it is made from stand for integers.
-/

namespace PolyEq

open Binary64

namespace Binary64

variable {x : Float} {n : ℤ} {q : ℚ}

theorem Denotes.two_mul (hx : Denotes x q) (h : (2 * x).isFinite = true) :
    Denotes (2 * x) (2 * q) :=
  ⟨h, ((denotes_two.rounds_mul hx).value_eq h).trans
    (nearest_of_representable hx.representable.two_mul)⟩

end Binary64

theorem ne_zero_of_toInteger?_two_mul {x : Float} {n : ℤ} (hx : epsilon ≤ x.abs)
    (h : toInteger? (2 * x) = some n) : n ≠ 0 := by
  have hf := isFinite_of_toInteger? h
  have hd := denotes_value (isFinite_of_mul hf).2
  refine ne_zero_of_toInteger? ?_ h
  rw [denotes_epsilon.le_iff (hd.two_mul hf).abs, abs_mul, abs_two]
  have hle := (denotes_epsilon.le_iff hd.abs).mp hx
  linarith [tolerance_pos]

theorem beq_zero_of_epsilon_le {x : Float} (hx : epsilon ≤ x.abs) : (x == 0) = false := by
  rw [← Bool.not_eq_true]
  intro h
  rcases kinds x with hf | ⟨s, hu⟩ | hu
  · have hd := denotes_value hf
    rw [hd.beq_iff denotes_zero] at h
    rw [denotes_epsilon.le_iff hd.abs, h, abs_zero] at hx
    exact absurd tolerance_pos (not_lt.mpr hx)
  · have h0 : (0 : Float).toModel.unpack = .zero .positive := by rfl
    rw [beq_iff_compare, hu, h0] at h
    cases s <;> cases h
  · exact (not_epsilon_le_abs_of_nan hu).1 hx

/-- What can go wrong in integer arithmetic: an integer that is too large, or a fraction that
cannot be reduced. -/
inductive ArithmeticFault where
  | overflow (exact : ℤ)
  | fraction (fault : FractionError)

namespace Solution

def Roots.hasExact : Roots → Bool
  | double root => root.fraction?.isSome
  | real _ (.exact ..) => true
  | real _ (.decimal ..) => false
  | complex _ _ exact => exact.isSome

def Roots.exactSources (a b c discriminant : Float) : Roots → List Float
  | double _ => [b, 2 * a]
  | real sqrtDiscriminant _ => [a, b, sqrtDiscriminant]
  | complex _ _ _ => [a, b, c, discriminant.abs]

namespace Checked

/-- An integer, refused if it has more than 64 bits. -/
def word (n : ℤ) : Except ArithmeticFault ℤ :=
  if Fraction.fitsWord n then .ok n else .error (.overflow n)

def fraction (numerator denominator : ℤ) : Except ArithmeticFault ℚ :=
  (Fraction.reduce numerator denominator).mapError .fraction

def exactRatio? (numerator denominator : Float) : Except ArithmeticFault (Option ℚ) := do
  match toInteger? numerator, toInteger? denominator with
  | some n, some d => return some (← fraction n d)
  | _, _ => return none

def root (numerator denominator : Float) : Except ArithmeticFault Root := do
  match ← exactRatio? numerator denominator with
  | some value => return .exact value (numerator / denominator)
  | none => return .decimal (numerator / denominator)

def exactPair? (a b root : Float) : Except ArithmeticFault (Option (ℚ × ℚ)) := do
  match toInteger? a, toInteger? b, toInteger? root with
  | some a, some b, some root =>
    let opposite ← word (-b)
    let upper ← word (opposite + root)
    let lower ← word (opposite - root)
    let twice ← word (2 * a)
    return some (← fraction upper twice, ← fraction lower twice)
  | _, _, _ => return none

def exactConjugates? (a b c discriminant : Float) :
    Except ArithmeticFault (Option Conjugates) := do
  match toInteger? a, toInteger? b, toInteger? c with
  | some a, some b, some _ =>
    let twice ← word (2 * a)
    let real ← fraction (← word (-b)) twice
    match toInteger? discriminant.abs with
    | none => return none
    | some radicand =>
      match toInteger? (sqrt (Rounding.ofInteger radicand)) with
      | some root =>
        let imaginary ← fraction root twice
        let _ ← word |imaginary.num|
        return some (.rational real imaginary.abs)
      | none => return some (.radical real radicand (← word |twice|))
  | _, _, _ => return none

def roots (a b c discriminant : Float) : Except ArithmeticFault Roots := do
  if isNegligible discriminant then return .double (← root (-b) (2 * a))
  else if discriminant > 0 then
    let r := sqrt discriminant
    let first := (-b + r) / (2 * a)
    let second := (-b - r) / (2 * a)
    match ← exactPair? a b r with
    | some (p, q) => return .real r (.exact p q first second)
    | none => return .real r (.decimal first second)
  else
    return .complex (-b / (2 * a)) (sqrt discriminant.abs / (2 * a)).abs
      (← exactConjugates? a b c discriminant)

def ofDegree (e : Equation) : Except ArithmeticFault Solution := do
  if e.degree = 1 then
    let a := e.coefficient 1
    let b := e.coefficient 0
    return .linear ⟨e.form, a, b, ← root (-b) a⟩
  else if e.degree = 2 then
    let a := e.coefficient 2
    let b := e.coefficient 1
    let c := e.coefficient 0
    let discriminant := b * b - 4 * a * c
    return .quadratic ⟨e.form, a, b, c, discriminant, ← roots a b c discriminant⟩
  else return Solution.ofDegree e

/-- Solving that stops at the first integer out of range or refused fraction. -/
def solve (e : Equation) : Except ArithmeticFault Solution := do
  let solution ← ofDegree e
  return if solution.isFinite then solution else .outOfRange e.form

variable {x y z r d : Float} {n m : ℤ}

@[simp] theorem ok_bind {α β : Type} (a : α) (next : α → Except ArithmeticFault β) :
    (Except.ok a >>= next) = next a := rfl

theorem word_eq_ok (h : |n| < 2 ^ 63) : word n = .ok n := by
  rw [abs_lt] at h
  exact if_pos (Fraction.fitsWord_iff.mpr ⟨by omega, by omega⟩)

theorem fraction_eq_ok (hn : |n| < 2 ^ 63) (hm : |m| < 2 ^ 63) (h0 : m ≠ 0) :
    fraction n m = .ok (n / m) ∧ (Fraction.reduce n m).toOption = some (n / m : ℚ) := by
  rw [fraction, Fraction.reduce_eq_ok hn hm h0]
  exact ⟨rfl, rfl⟩

theorem exactRatio?_spec (h : ∀ m, toInteger? y = some m → m ≠ 0) : ∃ o,
    exactRatio? x y = .ok o ∧ Solution.exactRatio? x y = o ∧
      o.isSome = (isIntegerLike x && isIntegerLike y) := by
  unfold exactRatio? Solution.exactRatio?
  simp only [← isSome_toInteger?]
  cases hx : toInteger? x with
  | none => exact ⟨_, rfl, rfl, rfl⟩
  | some n =>
    cases hy : toInteger? y with
    | none => exact ⟨_, rfl, rfl, rfl⟩
    | some m =>
      have hn := abs_le_of_toInteger? hx
      have hm := abs_le_of_toInteger? hy
      obtain ⟨hf, hr⟩ := fraction_eq_ok (hn.trans_lt (by norm_num)) (hm.trans_lt (by norm_num))
        (h m hy)
      exact ⟨some (n / m), by simp only [hf, ok_bind]; rfl, hr, rfl⟩

theorem root_spec (h : ∀ m, toInteger? y = some m → m ≠ 0) :
    root x y = .ok (.ofRatio x y) ∧
      (Root.ofRatio x y).fraction?.isSome = (isIntegerLike x && isIntegerLike y) := by
  obtain ⟨o, hc, hm, hs⟩ := exactRatio?_spec (x := x) h
  unfold root Root.ofRatio
  rw [hc, hm, ← hs, ok_bind]
  cases o <;> exact ⟨rfl, rfl⟩

theorem formula_eq_ok {a b : ℤ} (ha : |a| ≤ 2 ^ 53) (hb : |b| ≤ 2 ^ 53) (h0 : a ≠ 0) :
    word (-b) = .ok (-b) ∧ word (2 * a) = .ok (2 * a) ∧
      ∀ n : ℤ, |n| < 2 ^ 63 → fraction n (2 * a) = .ok (n / (2 * a : ℤ)) ∧
        (Fraction.reduce n (2 * a)).toOption = some (n / (2 * a : ℤ) : ℚ) := by
  have ht : |2 * a| < 2 ^ 63 := by rw [abs_mul, abs_two]; omega
  exact ⟨word_eq_ok (by rw [abs_neg]; omega), word_eq_ok ht,
    fun n hn => fraction_eq_ok hn ht (by omega)⟩

theorem exactPair?_spec (h : epsilon ≤ x.abs) : ∃ o, exactPair? x y r = .ok o ∧
    (do Solution.exactPair? (← toInteger? x) (← toInteger? y) (← toInteger? r)) = o ∧
      o.isSome = (isIntegerLike x && isIntegerLike y && isIntegerLike r) := by
  unfold exactPair? Solution.exactPair?
  simp only [← isSome_toInteger?]
  cases hx : toInteger? x with
  | none => exact ⟨_, rfl, rfl, rfl⟩
  | some a =>
    cases hy : toInteger? y with
    | none => exact ⟨_, rfl, rfl, rfl⟩
    | some b =>
      cases hr : toInteger? r with
      | none => exact ⟨_, rfl, rfl, rfl⟩
      | some n =>
        have hb := abs_le_of_toInteger? hy
        have hn := abs_le_of_toInteger? hr
        obtain ⟨ho, ht, hf⟩ := formula_eq_ok (abs_le_of_toInteger? hx) hb
          (ne_zero_of_toInteger? h hx)
        have hu : |-b + n| < 2 ^ 63 := by
          have := abs_add_le (-b) n
          rw [abs_neg] at this
          omega
        have hl : |-b - n| < 2 ^ 63 := by
          have := abs_sub (-b) n
          rw [abs_neg] at this
          omega
        obtain ⟨hp, hp'⟩ := hf _ hu
        obtain ⟨hq, hq'⟩ := hf _ hl
        simp only [ho, word_eq_ok hu, word_eq_ok hl, ht, hp, hq, ok_bind, Option.bind_eq_bind,
          Option.bind_some, hp', hq']
        exact ⟨_, rfl, rfl, rfl⟩

theorem exactConjugates?_spec (h : epsilon ≤ x.abs) : ∃ o, exactConjugates? x y z d = .ok o ∧
    (do
      let (a, b, radicand) ← exactParts? x y z d
      Solution.exactConjugates? a b radicand) = o ∧
      o.isSome = (isIntegerLike x && isIntegerLike y && isIntegerLike z &&
        isIntegerLike d.abs) := by
  unfold exactConjugates? Solution.exactConjugates? exactParts?
  simp only [← isSome_toInteger?]
  cases hx : toInteger? x with
  | none => exact ⟨_, rfl, rfl, rfl⟩
  | some a =>
    cases hy : toInteger? y with
    | none => exact ⟨_, rfl, rfl, rfl⟩
    | some b =>
      cases toInteger? z with
      | none => exact ⟨_, rfl, rfl, rfl⟩
      | some c =>
        have ha := abs_le_of_toInteger? hx
        have hb := abs_le_of_toInteger? hy
        have h0 := ne_zero_of_toInteger? h hx
        obtain ⟨ho, ht, hf⟩ := formula_eq_ok ha hb h0
        obtain ⟨hp, hp'⟩ := hf (-b) (by rw [abs_neg]; omega)
        simp only [ho, ht, hp, ok_bind, Option.bind_eq_bind, Option.bind_some]
        -- the real part is worked out before the radicand is known to be an integer
        cases toInteger? d.abs with
        | none => exact ⟨_, rfl, rfl, rfl⟩
        | some radicand =>
          simp only [Option.pure_def, Option.bind_some, hp']
          cases hr : toInteger? (sqrt (Rounding.ofInteger radicand)) with
          | none =>
            have habs : |(|2 * a|)| < 2 ^ 63 := by rw [abs_abs, abs_mul, abs_two]; omega
            simp only [word_eq_ok habs, ok_bind, Int.natCast_natAbs]
            exact ⟨_, rfl, rfl, rfl⟩
          | some n =>
            have hn := abs_le_of_toInteger? hr
            obtain ⟨hq, hq'⟩ := hf n (by omega)
            have hnum : |(|((n : ℚ) / (2 * a : ℤ)).num|)| < 2 ^ 63 := by
              have hle := Fraction.natAbs_num_le n (d := 2 * a) (by omega)
              rw [Rat.divInt_eq_div] at hle
              rw [Int.abs_eq_natAbs] at hn
              rw [abs_abs, Int.abs_eq_natAbs]
              omega
            simp only [hq, ok_bind, word_eq_ok hnum, hq', Option.bind_some]
            exact ⟨_, rfl, rfl, rfl⟩

theorem roots_spec (h : epsilon ≤ x.abs) :
    roots x y z d = .ok (.ofCoefficients x y z d) ∧
      (Roots.ofCoefficients x y z d).hasExact =
        ((Roots.ofCoefficients x y z d).exactSources x y z d).all isIntegerLike := by
  unfold roots Roots.ofCoefficients
  split_ifs
  · obtain ⟨hc, hs⟩ := root_spec (x := -y) fun m => ne_zero_of_toInteger?_two_mul h
    rw [hc, ok_bind]
    refine ⟨rfl, ?_⟩
    simp [Roots.hasExact, Roots.exactSources, hs, isIntegerLike_neg]
  · obtain ⟨o, hc, hm, hs⟩ := exactPair?_spec (y := y) (r := sqrt d) h
    unfold Roots.ofPositive
    simp only [hc, hm, ok_bind]
    cases o <;> refine ⟨rfl, ?_⟩ <;>
      simpa [Roots.hasExact, Roots.exactSources, and_assoc] using hs
  · obtain ⟨o, hc, hm, hs⟩ := exactConjugates?_spec (y := y) (z := z) (d := d) h
    unfold Roots.ofNegative
    simp only [hc, hm, ok_bind]
    refine ⟨rfl, ?_⟩
    simp [Roots.hasExact, Roots.exactSources, hs, Bool.and_assoc]

variable {e : Equation}

theorem ofDegree_eq (h : e.DegreeAttained) : ofDegree e = .ok (Solution.ofDegree e) := by
  have hle := h.epsilon_le
  unfold ofDegree
  dsimp only
  split_ifs with h1 h2
  · rw [h1] at hle
    rw [(root_spec fun m => ne_zero_of_toInteger? (hle (by decide))).1, ok_bind]
    simp [Solution.ofDegree, h1, Linear.ofEquation, pure, Except.pure]
  · rw [h2] at hle
    rw [(roots_spec (hle (by decide))).1, ok_bind]
    simp [Solution.ofDegree, h2, Quadratic.ofEquation, pure, Except.pure]
  · rfl

theorem solve_eq (h : e.DegreeAttained) : solve e = .ok e.solve := by
  rw [solve, ofDegree_eq h]
  rfl

end Checked

variable {e : Equation}

theorem degree_of_solve_linear {s : Linear} (h : e.solve = .linear s) : e.degree = 1 := by
  have hs := h ▸ solved_solve e
  cases hs
  assumption

theorem degree_of_solve_quadratic {s : Quadratic} (h : e.solve = .quadratic s) :
    e.degree = 2 := by
  have hs := h ▸ solved_solve e
  cases hs
  assumption

theorem isSome_of_solve_linear {s : Linear} (h : e.DegreeAttained) (hs : e.solve = .linear s) :
    s.root.fraction?.isSome = (isIntegerLike (-s.b) && isIntegerLike s.a) := by
  have hle := h.epsilon_le
  rw [degree_of_solve_linear hs] at hle
  rw [eq_of_solve_linear hs]
  exact (Checked.root_spec fun m => ne_zero_of_toInteger? (hle (by decide))).2

theorem hasExact_of_solve_quadratic {s : Quadratic} (h : e.DegreeAttained)
    (hs : e.solve = .quadratic s) :
    s.roots.hasExact = (s.roots.exactSources s.a s.b s.c s.discriminant).all isIntegerLike := by
  have hle := h.epsilon_le
  rw [degree_of_solve_quadratic hs] at hle
  rw [eq_of_solve_quadratic hs]
  exact (Checked.roots_spec (hle (by decide))).2

end Solution

namespace Equation

/-- Whatever terms are added, with reductions between them, solving never meets an arithmetic
fault: the leading coefficient reaches the tolerance, no integer is too large and every fraction
can be reduced. An exact form is there exactly if what it is made from stands for integers. -/
theorem checked_solve (edits : List Edit) :
    ((run edits).degree = 1 ∨ (run edits).degree = 2 →
      ((run edits).coefficient (run edits).degree == 0) = false ∧
        epsilon ≤ ((run edits).coefficient (run edits).degree).abs) ∧
    Solution.Checked.solve (run edits) = .ok (run edits).solve ∧
    (∀ s, (run edits).solve = .linear s →
      s.root.fraction?.isSome = (isIntegerLike (-s.b) && isIntegerLike s.a)) ∧
    (∀ s, (run edits).solve = .quadratic s → s.roots.hasExact =
      (s.roots.exactSources s.a s.b s.c s.discriminant).all isIntegerLike) := by
  have h := degreeAttained_run edits
  refine ⟨?_, Solution.Checked.solve_eq h, fun s => Solution.isSome_of_solve_linear h,
    fun s => Solution.hasExact_of_solve_quadratic h⟩
  intro hdeg
  have hle := h.epsilon_le (by rcases hdeg with h | h <;> rw [h] <;> decide)
  exact ⟨beq_zero_of_epsilon_le hle, hle⟩

theorem checked_solve_square_add_one : ∃ edits : List Edit, ∃ s,
    edits = [.add ⟨1, 2⟩ .left, .add ⟨1, 0⟩ .left] ∧ (run edits).degree = 2 ∧
      ((run edits).coefficient 2 == 0) = false ∧ (run edits).solve = .quadratic s ∧
      s.roots.hasExact = true := by
  obtain ⟨hlead, -, -, hexact⟩ := checked_solve [.add ⟨1, 2⟩ .left, .add ⟨1, 0⟩ .left]
  have hd : (run [.add ⟨1, 2⟩ .left, .add ⟨1, 0⟩ .left]).degree = 2 := by decide +kernel
  rw [hd] at hlead
  have hs : (run [.add ⟨1, 2⟩ .left, .add ⟨1, 0⟩ .left]).solve = .quadratic (.ofEquation
      (run [.add ⟨1, 2⟩ .left, .add ⟨1, 0⟩ .left])) := by
    have hf : (Solution.ofDegree (run [.add ⟨1, 2⟩ .left, .add ⟨1, 0⟩ .left])).isFinite = true := by
      decide +kernel
    rw [Solution.solve_eq_ofDegree hf]
    simp [Solution.ofDegree, hd]
  refine ⟨_, _, rfl, hd, (hlead (.inr rfl)).1, hs, ?_⟩
  rw [hexact _ hs]
  decide +kernel

end Equation

end PolyEq
