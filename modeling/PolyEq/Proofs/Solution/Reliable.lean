import PolyEq.Proofs.Solution.Residual

/-! # Reliable roots

A root that is reported nearly satisfies its equation, unless the discriminant was taken for zero,
its root was cut off or two close numbers were subtracted. Each of these spoils some root.
-/

namespace PolyEq

open Binary64
open SquareRoot (exists_isRoot)

variable {x y z u v : Float} {a b c d r : ℚ}

namespace Solution

/-- What keeps the tolerance, the limit of steps and cancellation from spoiling a real root. -/
def Roots.Reliable (a b c d r : ℚ) : Roots → Prop
  | double _ => ReliableDouble a b c
  | real root _ => ReliableReal a b c d (value root) r
  | complex _ _ _ => True

instance (a b c d r : ℚ) : (roots : Roots) → Decidable (roots.Reliable a b c d r)
  | .double _ => inferInstanceAs (Decidable (ReliableDouble _ _ _))
  | .real _ _ => inferInstanceAs (Decidable (ReliableReal _ _ _ _ _ _))
  | .complex _ _ _ => inferInstanceAs (Decidable True)

def Reliable (r : Float) : Solution → Prop
  | quadratic s =>
    s.roots.Reliable (value s.a) (value s.b) (value s.c) (value s.discriminant) (value r)
  | _ => True

instance (r : Float) : (s : Solution) → Decidable (s.Reliable r)
  | .quadratic s => inferInstanceAs (Decidable (s.roots.Reliable _ _ _ _ _))
  | .unsolvable _ | .allReals _ | .noSolution _ | .outOfRange _ | .linear _ =>
    inferInstanceAs (Decidable True)

@[simp] theorem reals_ofPositive (x y u : Float) : (Roots.ofPositive x y u).reals =
    [(-y + sqrt u) / (2 * x), (-y - sqrt u) / (2 * x)] := by
  unfold Roots.ofPositive
  dsimp only
  split <;> rfl

theorem reliable_ofPositive (h : (Roots.ofPositive x y u).Reliable a b c d r) :
    ReliableReal a b c d (value (sqrt u)) r := by
  unfold Roots.ofPositive at h
  dsimp only at h
  split at h <;> exact h

end Solution

theorem Regular.nearRoot (h : Regular x y z a b c d) (hb : Sizable b) (hc : Sizable c)
    (hu : u = y * y - 4 * x * z)
    (hf : ∀ v ∈ (Solution.Roots.ofCoefficients x y z u).values, v.isFinite = true)
    (hv : v ∈ (Solution.Roots.ofCoefficients x y z u).reals)
    (hrel : (Solution.Roots.ofCoefficients x y z u).Reliable a b c d (value v)) :
    NearRoot a b c (value v) := by
  have hd : Denotes u d := hu ▸ h.discriminant
  unfold Solution.Roots.ofCoefficients at *
  split_ifs at * with hn hpos
  · simp only [Solution.Roots.reals, List.mem_singleton, Solution.value_ofRatio] at hv
    subst hv
    refine h.nearRoot_double hb hc ((isNegligible_iff hd).mp hn) (hf _ ?_) hrel
    simp [Solution.Roots.values]
  · have hle : tolerance ≤ |d| := not_lt.mp (mt (isNegligible_iff hd).mpr hn)
    rw [abs_of_pos ((denotes_zero.lt_iff hd).mp hpos)] at hle
    obtain ⟨s, hs, hr⟩ := exists_isRoot hd hle
    have hrel := Solution.reliable_ofPositive hrel
    rw [hs.value_eq] at hrel
    simp only [Solution.values_ofPositive, List.forall_mem_cons] at hf
    simp only [Solution.reals_ofPositive, List.mem_cons, List.not_mem_nil, or_false] at hv
    obtain rfl | rfl := hv
    · rw [← abs_of_pos hr.pos] at hr
      exact h.nearRoot_real hb hc hr hle hs.representable (h.first.neg.rounds_add hs) hf.2.1 hrel
    · rw [← abs_of_pos hr.pos, ← abs_neg] at hr
      have hrounds := h.first.neg.rounds_sub hs
      rw [sub_eq_add_neg] at hrounds
      rw [ReliableReal, ← neg_sq s] at hrel
      exact h.nearRoot_real hb hc hr hle hs.representable.neg hrounds hf.2.2.1 hrel
  · simp [Solution.Roots.ofNegative, Solution.Roots.reals] at hv

namespace Equation

variable {e : Equation}

def NearlyHolds (e : Equation) (r : Float) : Prop :=
  NearRoot (value (e.coefficient 2)) (value (e.coefficient 1)) (value (e.coefficient 0)) (value r)

instance (e : Equation) (r : Float) : Decidable (e.NearlyHolds r) :=
  inferInstanceAs (Decidable (NearRoot _ _ _ _))

theorem sizable_coefficient {n : UInt64} (h : (e.reduce.coefficient n).isFinite = true) :
    Sizable (value (e.reduce.coefficient n)) := by
  obtain h0 | hle := e.coefficient_reduce n
  · exact .inl (by rw [h0, value_zero])
  · exact .inr ((denotes_epsilon.le_iff (denotes_value h).abs).mp hle)

theorem nearlyHolds_linear (h1 : e.reduce.degree = 1)
    (hf : (Solution.linear (.ofEquation e.reduce)).isFinite = true) :
    e.reduce.NearlyHolds (Solution.Linear.ofEquation e.reduce).root.value := by
  have h2 : e.reduce.coefficient 2 = 0 := coefficient_of_degree_lt (by rw [h1]; decide)
  have hle := (degreeAttained_apply e .reduce).epsilon_le (h1.trans_ne (by decide))
  simp only [Solution.isFinite, Solution.values, List.all_cons, Bool.and_eq_true] at hf
  obtain ⟨hfa, hfb, hfr, -⟩ := hf
  have ha : Denotes (e.reduce.coefficient 1) _ := denotes_value hfa
  change epsilon ≤ (e.reduce.coefficient e.reduce.degree).abs at hle
  rw [h1, denotes_epsilon.le_iff ha.abs] at hle
  unfold NearlyHolds
  rw [h2, value_zero]
  unfold Solution.Linear.ofEquation at hfr ⊢
  rw [Solution.value_ofRatio] at hfr ⊢
  exact nearRoot_linear ha (denotes_value hfb) (abs_pos.mp (tolerance_pos.trans_le hle))
    (sizable_coefficient hfb) hfr

/-- A reliable root of a reduced equation nearly satisfies it. -/
theorem nearlyHolds_of_reliable {r : Float} (hr : r ∈ e.reduce.solve.realRoots)
    (hrel : e.reduce.solve.Reliable r) : e.reduce.NearlyHolds r := by
  obtain ⟨hs, hf⟩ | hs := Solution.solve_eq_or e.reduce <;> rw [hs] at hr hrel
  · unfold Solution.ofDegree at *
    split_ifs at * with h0 h1 h2
    · unfold Solution.ofConstant at hr
      split_ifs at hr <;> simp [Solution.realRoots] at hr
    · obtain rfl := List.mem_singleton.mp hr
      exact nearlyHolds_linear h1 hf
    · have h := Solution.regular_ofEquation (degreeAttained_apply e .reduce) h2 hf
      simp only [Solution.isFinite, Solution.values, List.all_cons, Bool.and_eq_true,
        List.all_eq_true] at hf
      exact h.nearRoot (sizable_coefficient hf.2.1) (sizable_coefficient hf.2.2.1) rfl hf.2.2.2.2
        hr hrel
    · simp [Solution.realRoots] at hr
  · simp [Solution.realRoots] at hr

/-- The roots of `X ^ 2 - X - 1 = 0` are not rational. -/
theorem nearlyHolds_golden_ratio : ∃ e r,
    e = run [.add ⟨1, 2⟩ .left, .add ⟨-1, 1⟩ .left, .add ⟨-1, 0⟩ .left] ∧
      r ∈ e.reduce.solve.realRoots ∧ e.reduce.solve.Reliable r ∧ e.reduce.NearlyHolds r := by
  obtain ⟨e, he⟩ : ∃ e, e = run [.add ⟨1, 2⟩ .left, .add ⟨-1, 1⟩ .left, .add ⟨-1, 0⟩ .left] :=
    ⟨_, rfl⟩
  have h : ∃ r ∈ e.reduce.solve.realRoots, e.reduce.solve.Reliable r := by
    rw [he]
    decide +kernel
  obtain ⟨r, hr, hrel⟩ := h
  exact ⟨e, r, he, hr, hrel, nearlyHolds_of_reliable hr hrel⟩

/-- Roots are spoiled by the tolerance for the discriminant, by cancellation and by the limit of
steps. -/
theorem not_nearlyHolds_unreliable :
    (∃ r ∈ (run [.add ⟨1e-5, 2⟩ .left, .add ⟨-1e-6, 0⟩ .left]).reduce.solve.realRoots,
      ¬ (run [.add ⟨1e-5, 2⟩ .left, .add ⟨-1e-6, 0⟩ .left]).reduce.NearlyHolds r) ∧
    (∃ r ∈ (run [.add ⟨1, 2⟩ .left, .add ⟨1e7, 1⟩ .left,
        .add ⟨1, 0⟩ .left]).reduce.solve.realRoots,
      ¬ (run [.add ⟨1, 2⟩ .left, .add ⟨1e7, 1⟩ .left,
        .add ⟨1, 0⟩ .left]).reduce.NearlyHolds r) ∧
    ∃ r ∈ (run [.add ⟨1, 2⟩ .left, .add ⟨-1e71, 0⟩ .left]).reduce.solve.realRoots,
      ¬ (run [.add ⟨1, 2⟩ .left, .add ⟨-1e71, 0⟩ .left]).reduce.NearlyHolds r := by
  refine ⟨?_, ?_, ?_⟩ <;> decide +kernel

end Equation

end PolyEq
