import PolyEq.Proofs.SquareRoot.Accuracy

/-! # The range of the loop

A guess that the loop divides by is never below the tolerance, so no quotient overflows and no guess
that follows, although the radicand may be the largest float and the loop may run out of steps.
-/

namespace PolyEq

open Binary64

namespace SquareRoot

variable {x y g : Float} {a q : ℚ} {n : ℕ}

def divisors (x : Float) : ℕ → Float → List Float
  | 0, _ => []
  | steps + 1, guess =>
    clamp guess :: if isNegligible (step x guess - clamp guess) then []
      else divisors x steps (step x guess)

/-- The guesses that the root of `x` divides by, none if it is known without the loop. -/
def loopDivisors (x : Float) : List Float :=
  if x ≤ 0 ∨ (x == 1) = true ∨ x < epsilon then [] else divisors x maxSteps (start x)

/-- A guess that is safe to divide by, with a quotient and a next guess that do not overflow. -/
structure InRange (x g : Float) : Prop where
  isFinite : g.isFinite = true
  pos : 0 < g
  epsilon_le : epsilon ≤ g
  quotient : (x / g).isFinite = true
  next : (improve x g).isFinite = true

theorem exists_of_mem_divisors (h : g ∈ divisors x n y) : ∃ i, g = clamp ((step x)^[i] y) := by
  induction n generalizing y with
  | zero => cases h
  | succ n ih =>
    rw [divisors, List.mem_cons] at h
    rcases h with rfl | h
    · exact ⟨0, rfl⟩
    · split_ifs at h
      · cases h
      · obtain ⟨i, rfl⟩ := ih h
        exact ⟨i + 1, rfl⟩

theorem value_iterate (x : Float) (n : ℕ) (y : Float) :
    (iterate x n y).value = ((divisors x n y).getLast?.map (improve x)).getD y := by
  induction n generalizing y with
  | zero => rfl
  | succ n ih =>
    rw [divisors, List.getLast?_cons, Option.map_some, Option.getD_some, iterate]
    change (if isNegligible (step x y - clamp y) = true then _ else _ : SquareRoot).value = _
    split_ifs
    · rfl
    · change (iterate x n (step x y)).value = _
      rw [ih, step, Option.getD_map]

theorem length_divisors_le (x : Float) (n : ℕ) (y : Float) : (divisors x n y).length ≤ n := by
  induction n generalizing y with
  | zero => exact le_rfl
  | succ n ih =>
    rw [divisors, List.length_cons]
    split_ifs
    · exact Nat.succ_le_succ (Nat.zero_le n)
    · exact Nat.succ_le_succ (ih _)

theorem Steps.inRange (h : Steps x y a q) (hq : tolerance ≤ q) : InRange x (clamp y) := by
  have hnext : (improve x (clamp y)).isFinite = true := h.next.isFinite
  refine ⟨h.denotes.isFinite, ?_, ?_, ?_, hnext⟩
  · exact (denotes_zero.lt_iff h.denotes).mpr h.pos
  · exact (denotes_epsilon.le_iff h.denotes).mpr hq
  · -- the next guess is half of a sum with the quotient
    have hsum := (isFinite_of_mul hnext).2
    exact (isFinite_of_add hsum).2

theorem mem_loopDivisors (hx : Denotes x a) (h : g ∈ loopDivisors x) :
    tolerance ≤ a ∧ a ≠ 1 ∧ loopDivisors x = divisors x maxSteps (start x) := by
  unfold loopDivisors at h ⊢
  split_ifs at h ⊢ with hloop
  · cases h
  · rw [not_or, not_or, hx.beq_iff denotes_one, hx.lt_iff denotes_epsilon, not_lt] at hloop
    exact ⟨hloop.2.2, hloop.2.1, rfl⟩

theorem inRange_of_mem_loopDivisors (hx : Denotes x a) (h : g ∈ loopDivisors x) :
    InRange x g := by
  obtain ⟨hl, -, hdivisors⟩ := mem_loopDivisors hx h
  rw [hdivisors] at h
  obtain ⟨i, rfl⟩ := exists_of_mem_divisors h
  obtain ⟨q, hs, hq⟩ := exists_steps hx hl i
  exact hs.inRange hq

theorem sqrt_eq_improve (hx : Denotes x a) (h : g ∈ (loopDivisors x).getLast?) :
    sqrt x = improve x g := by
  obtain ⟨hl, h1, hdivisors⟩ := mem_loopDivisors hx (List.mem_of_getLast? h)
  rw [hdivisors, Option.mem_def] at h
  rw [sqrt_eq_iterate hx hl h1]
  change (iterate x maxSteps (start x)).value = _
  rw [value_iterate, h, Option.map_some, Option.getD_some]

theorem length_loopDivisors_le (x : Float) : (loopDivisors x).length ≤ maxSteps := by
  unfold loopDivisors
  split_ifs
  · exact Nat.zero_le _
  · exact length_divisors_le x maxSteps (start x)

theorem exists_pos_sqrt (hx : Denotes x a) (h0 : 0 < a) : ∃ s, Denotes (sqrt x) s ∧ 0 < s := by
  rcases lt_or_ge a tolerance with hlt | hle
  · exact ⟨a, (sqrt_of_lt_tolerance hx h0 hlt).symm ▸ hx, h0⟩
  · obtain ⟨s, hs, hroot⟩ := exists_isRoot hx hle
    exact ⟨s, hs, hroot.pos⟩

end SquareRoot

open SquareRoot (InRange loopDivisors improve maxSteps length_loopDivisors_le
  inRange_of_mem_loopDivisors sqrt_eq_improve exists_pos_sqrt)

/-- In every step of the loop the guess is finite and at least the tolerance, and so are finite the
quotient and the next guess, the last of which is the root. The root is finite, and zero or positive
as the radicand is. -/
theorem loop_in_range {x : Float} (hx : x.isFinite = true) :
    (loopDivisors x).length ≤ maxSteps ∧ (∀ g ∈ loopDivisors x, InRange x g) ∧
    (∀ g ∈ (loopDivisors x).getLast?, sqrt x = improve x g) ∧
    (sqrt x).isFinite = true ∧ (x ≤ 0 → sqrt x = 0) ∧ (0 < x → 0 < sqrt x) := by
  have hd := denotes_value hx
  refine ⟨length_loopDivisors_le x, fun g => inRange_of_mem_loopDivisors hd,
    fun g => sqrt_eq_improve hd, ?_, SquareRoot.sqrt_of_le_zero, ?_⟩
  · rcases le_or_gt (value x) 0 with h0 | h0
    · rw [SquareRoot.sqrt_of_le_zero ((hd.le_iff denotes_zero).mpr h0)]
      exact denotes_zero.isFinite
    · obtain ⟨s, hs, -⟩ := exists_pos_sqrt hd h0
      exact hs.isFinite
  · intro h0
    obtain ⟨s, hs, hpos⟩ := exists_pos_sqrt hd ((denotes_zero.lt_iff hd).mp h0)
    exact (denotes_zero.lt_iff hs).mpr hpos

/-- Not even the largest float leads out of range. -/
theorem loop_in_range_largest : ∃ x : Float, x = 1.7976931348623157e308 ∧ x.isFinite = true ∧
    (loopDivisors x).isEmpty = false ∧ (∀ g ∈ loopDivisors x, InRange x g) ∧
    (∀ g ∈ (loopDivisors x).getLast?, sqrt x = improve x g) ∧
    (sqrt x).isFinite = true ∧ 0 < sqrt x := by
  have hx : (1.7976931348623157e308 : Float).isFinite = true := by decide +kernel
  obtain ⟨-, hrange, hlast, hfinite, -, hpos⟩ := loop_in_range hx
  exact ⟨_, rfl, hx, by decide +kernel, hrange, hlast, hfinite, hpos (by decide +kernel)⟩

end PolyEq
