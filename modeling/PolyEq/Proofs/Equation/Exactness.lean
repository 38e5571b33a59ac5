import PolyEq.Proofs.Equation.Accumulation
import PolyEq.Proofs.Equation.Exchange

/-! # Exact sums

Integers are summed exactly as long as their absolute values do not sum up to more than `2 ^ 53`.
So neither the order of terms with integer coefficients matters nor the side they are written on.
-/

namespace PolyEq

open Binary64

structure IntegerTerm where
  integer : ℤ
  coefficient : Float
  exponent : UInt64
  side : Side
  denotes : Denotes coefficient integer

variable {x : Float} {i j : ℤ} {n : UInt64} {s t : Term} {e e' : Equation} {l : List Float}
  {ks : List ℤ} {u v : IntegerTerm} {terms terms' : List IntegerTerm}

section Sums

theorem denotes_add_of_le {y : Float} (hx : Denotes x i) (hy : Denotes y j)
    (h : |i + j| ≤ 2 ^ 53) : Denotes (x + y) (i + j : ℤ) := by
  have hr := hx.rounds_add hy
  rw [← Int.cast_add] at hr
  exact hr.denotes_of_representable (representable_intCast h) (abs_intCast_lt h)

/-- The bound on the integers that are left to add holds of the partial sum as well. -/
theorem denotes_foldl_add (h : List.Forall₂ (fun y k => Denotes y ((k : ℤ) : ℚ)) l ks)
    (hx : Denotes x i) (hb : |i| + (ks.map abs).sum ≤ 2 ^ 53) :
    Denotes (l.foldl (· + ·) x) (i + ks.sum : ℤ) := by
  induction h generalizing x i with
  | nil => simpa using hx
  | @cons y j l ks hy _ ih =>
    have h0 : 0 ≤ (ks.map abs).sum := List.sum_nonneg (by simp)
    have htriangle := abs_add_le i j
    rw [List.map_cons, List.sum_cons] at hb
    have hxy := denotes_add_of_le hx hy (by omega)
    rw [List.sum_cons, ← add_assoc]
    exact ih hxy (by omega)

theorem denotes_total (h : List.Forall₂ (fun y k => Denotes y ((k : ℤ) : ℚ)) l ks)
    (hb : (ks.map abs).sum ≤ 2 ^ 53) : Denotes ((total l).getD 0) ks.sum := by
  cases h with
  | nil => exact_mod_cast denotes_zero
  | cons hx hl =>
    rw [List.sum_cons]
    rw [List.map_cons, List.sum_cons] at hb
    exact denotes_foldl_add hl hx hb

end Sums

namespace IntegerTerm

def edit (u : IntegerTerm) : Edit :=
  .add ⟨u.coefficient, u.exponent⟩ u.side

def exchange (u : IntegerTerm) : IntegerTerm :=
  { u with side := u.side.exchange }

def moved (u : IntegerTerm) : IntegerTerm where
  integer := -u.integer
  coefficient := -u.coefficient
  exponent := u.exponent
  side := .left
  denotes := by simpa using u.denotes.neg

/-- A term stays as it is, or it is moved from the right side to the left one. -/
inductive Moves : IntegerTerm → IntegerTerm → Prop
  | kept (u : IntegerTerm) : Moves u u
  | moved (u : IntegerTerm) (h : u.side = .right) : Moves u u.moved

def contribution (u : IntegerTerm) : Float :=
  u.side.orient u.coefficient

def signedInteger (u : IntegerTerm) : ℤ :=
  match u.side with
  | .left => u.integer
  | .right => -u.integer

theorem denotes_contribution (u : IntegerTerm) : Denotes u.contribution u.signedInteger := by
  unfold contribution signedInteger Side.orient
  cases u.side with
  | left => exact u.denotes
  | right => simpa using u.denotes.neg

@[simp] theorem abs_signedInteger (u : IntegerTerm) : |u.signedInteger| = |u.integer| := by
  unfold signedInteger
  cases u.side with
  | left => rfl
  | right => exact abs_neg _

def integersOn (side : Side) (n : UInt64) (terms : List IntegerTerm) : List ℤ :=
  (terms.filter fun u => u.side = side ∧ u.exponent = n).map integer

def balance (n : UInt64) (terms : List IntegerTerm) : ℤ :=
  (integersOn .left n terms).sum - (integersOn .right n terms).sum

/-- The absolute values of the terms with an exponent sum up to `2 ^ 53` at most. -/
def IsSmall (terms : List IntegerTerm) : Prop :=
  ∀ n, ((terms.filter fun u => u.exponent = n).map fun u => |u.integer|).sum ≤ 2 ^ 53

theorem IsSmall.perm (h : IsSmall terms) (hp : terms'.Perm terms) : IsSmall terms' := by
  intro n
  rw [((hp.filter _).map _).sum_eq]
  exact h n

theorem balance_perm (hp : terms'.Perm terms) (n : UInt64) :
    balance n terms' = balance n terms := by
  have hsum (side : Side) :
      (integersOn side n terms').sum = (integersOn side n terms).sum :=
    ((hp.filter _).map _).sum_eq
  rw [balance, hsum, hsum, balance]

theorem sum_signedInteger (n : UInt64) (terms : List IntegerTerm) :
    ((terms.filter fun u => u.exponent = n).map signedInteger).sum = balance n terms := by
  induction terms with
  | nil => rfl
  | cons u terms ih =>
    unfold balance integersOn at ih ⊢
    by_cases hn : u.exponent = n
    · cases hs : u.side with
      | left => simp [hn, hs, ih, signedInteger]; ring
      | right => simp [hn, hs, ih, signedInteger]; ring
    · simp [hn, ih]

theorem contributions_edits (n : UInt64) (terms : List IntegerTerm) :
    contributions n (terms.map edit) =
      (terms.filter fun u => u.exponent = n).map contribution := by
  induction terms with
  | nil => rfl
  | cons u terms ih =>
    unfold contributions history at ih ⊢
    by_cases hn : u.exponent = n
    · simpa [edit, Edit.event?, Event.contribution?, hn, contribution] using ih
    · simpa [edit, Edit.event?, hn] using ih

theorem Moves.event?_eq (h : Moves u v) (n : UInt64) : v.edit.event? n = u.edit.event? n := by
  cases h with
  | kept => rfl
  | moved hs =>
    unfold edit
    rw [hs]
    rfl

theorem history_moves (h : List.Forall₂ Moves terms terms') (n : UInt64) :
    history n (terms'.map edit) = history n (terms.map edit) := by
  unfold history
  induction h with
  | nil => rfl
  | cons huv _ ih =>
    rw [List.map_cons, List.map_cons, List.filterMap_cons, List.filterMap_cons, huv.event?_eq, ih]

end IntegerTerm

namespace Term

theorem Opposite.eq_negate (h : Opposite s t) (hs : s.isSignificant = true) : t = s.negate := by
  obtain ⟨hexponent, heq | ⟨h0, -⟩⟩ := h
  · cases t
    cases hexponent
    cases heq
    rfl
  · have hfinite : s.coefficient.isFinite = true := (isFinite_neg _).symm.trans h0.isFinite
    have hvalue := h0.value_eq
    rw [value_neg, neg_eq_zero] at hvalue
    exact absurd hvalue (value_ne_zero hfinite hs)

theorem eq_map_negate {l l' : List Term} (h : List.Forall₂ Opposite l l')
    (hs : ∀ s ∈ l, s.isSignificant = true) : l' = l.map negate := by
  induction h with
  | nil => rfl
  | cons hst _ ih =>
    obtain ⟨hs, hl⟩ := List.forall_mem_cons.mp hs
    rw [List.map_cons, hst.eq_negate hs, ih hl]

end Term

namespace Equation

theorem reduce_eq_of_terms_eq (h : e.reduce.terms = e'.reduce.terms) : e.reduce = e'.reduce :=
  eq_of_terms_eq h (congrArg Term.lastExponent h)

theorem reduce_run_exchange (edits : List Edit) :
    (run (edits.map Edit.exchange)).reduce = (run edits).reduce.negate := by
  have h := (opposite_run edits).reduce
  refine eq_of_terms_eq ?_ h.degree
  exact Term.eq_map_negate h.terms fun s hs => (List.mem_filter.mp hs).2

theorem denotes_coefficient_reduce (h : Denotes (e.coefficient n) i) :
    Denotes (e.reduce.coefficient n) i := by
  change Denotes ((e.coefficient? n).getD 0) i at h
  change Denotes ((e.reduce.coefficient? n).getD 0) i
  rw [coefficient?_reduce]
  cases hx : e.coefficient? n with
  | none => rwa [hx] at h
  | some x =>
    rw [hx, Option.getD_some] at h
    rw [Option.filter_some]
    split_ifs with hle
    · exact h
    · rw [decide_eq_true_iff, denotes_epsilon.le_iff h.abs, not_le] at hle
      have hlt : |(i : ℚ)| < 1 := hle.trans (tolerance_lt.trans (by norm_num))
      obtain rfl : i = 0 := Int.abs_lt_one_iff.mp (by exact_mod_cast hlt)
      exact_mod_cast denotes_zero

theorem mem_terms_reduce_iff {q : ℚ} (h : Denotes (e.reduce.coefficient t.exponent) q) :
    t ∈ e.reduce.terms ↔ Denotes t.coefficient q ∧ q ≠ 0 := by
  constructor
  · intro ht
    rw [coefficient_of_mem ht] at h
    refine ⟨h, ?_⟩
    rw [← h.value_eq]
    exact Term.value_ne_zero h.isFinite (List.mem_filter.mp ht).2
  · rintro ⟨ht, h0⟩
    obtain hz | ⟨s, hs, hexponent, hc⟩ := e.reduce.coefficient_eq_zero_or t.exponent
    · rw [hz] at h
      exact absurd (h.value_eq.symm.trans value_zero) h0
    · rw [hc] at h
      have hst : s = t := by
        cases s
        cases t
        cases hexponent
        cases h.eq ht rfl h0
        rfl
      exact hst ▸ hs

theorem reduce_congr {q : UInt64 → ℚ} (h : ∀ n, Denotes (e.reduce.coefficient n) (q n))
    (h' : ∀ n, Denotes (e'.reduce.coefficient n) (q n)) : e.reduce = e'.reduce := by
  apply reduce_eq_of_terms_eq
  apply e.reduce.ascending.ext e'.reduce.ascending
  intro t
  rw [mem_terms_reduce_iff (h _), mem_terms_reduce_iff (h' _)]

open IntegerTerm

def ofIntegerTerms (terms : List IntegerTerm) : Equation :=
  run (terms.map edit)

theorem coefficient?_ofIntegerTerms (terms : List IntegerTerm) (n : UInt64) :
    (ofIntegerTerms terms).coefficient? n =
      total ((terms.filter fun u => u.exponent = n).map contribution) := by
  have hnever : IsLastDrop n [] (terms.map edit) := by
    refine ⟨.inl rfl, fun before after h => ?_⟩
    have hmem : Edit.reduce ∈ terms.map edit := by simp [h]
    obtain ⟨u, -, hu⟩ := List.mem_map.mp hmem
    cases hu
  rw [← contributions_edits]
  exact hnever.coefficient?_eq

theorem denotes_ofIntegerTerms (h : IsSmall terms) (n : UInt64) :
    Denotes ((ofIntegerTerms terms).coefficient n) (balance n terms) := by
  change Denotes (((ofIntegerTerms terms).coefficient? n).getD 0) _
  rw [coefficient?_ofIntegerTerms, ← sum_signedInteger]
  apply denotes_total
  · rw [List.forall₂_map_left_iff, List.forall₂_map_right_iff]
    exact List.forall₂_same.mpr fun u _ => u.denotes_contribution
  · rw [List.map_map]
    exact (congrArg List.sum (List.map_congr_left fun u _ => u.abs_signedInteger)).trans_le (h n)

theorem denotes_reduce_ofIntegerTerms (h : IsSmall terms) (n : UInt64) :
    Denotes ((ofIntegerTerms terms).reduce.coefficient n) (balance n terms) :=
  denotes_coefficient_reduce (denotes_ofIntegerTerms h n)

theorem ofIntegerTerms_exchange (terms : List IntegerTerm) :
    ofIntegerTerms (terms.map exchange) = run ((terms.map edit).map Edit.exchange) := by
  rw [ofIntegerTerms, List.map_map, List.map_map]
  rfl

/-- Integer coefficients are summed exactly. So permuting the terms, or moving some to the left side
with the other sign, leads to the same equation. Exchanging the sides negates it. -/
theorem reduce_ofIntegerTerms (h : IsSmall terms) :
    (∀ n, Denotes ((ofIntegerTerms terms).reduce.coefficient n) (balance n terms)) ∧
    (∀ terms', terms'.Perm terms → (ofIntegerTerms terms').reduce = (ofIntegerTerms terms).reduce) ∧
    (∀ terms', List.Forall₂ Moves terms terms' →
      (ofIntegerTerms terms').reduce = (ofIntegerTerms terms).reduce) ∧
    (ofIntegerTerms (terms.map exchange)).reduce = (ofIntegerTerms terms).reduce.negate := by
  refine ⟨denotes_reduce_ofIntegerTerms h, fun terms' hp => ?_, fun terms' hm => ?_, ?_⟩
  · refine reduce_congr (denotes_reduce_ofIntegerTerms (h.perm hp)) fun n => ?_
    rw [balance_perm hp]
    exact denotes_reduce_ofIntegerTerms h n
  · exact congrArg reduce (run_congr (history_moves hm))
  · rw [ofIntegerTerms_exchange]
    exact reduce_run_exchange _

/-- In `3 * X ^ 2 + 5 * X = 4 * X ^ 2 + 5 * X` the linear terms cancel, in any order. -/
theorem reduce_ofIntegerTerms_cancelled : ∃ terms : List IntegerTerm,
    terms.map edit = [.add ⟨3, 2⟩ .left, .add ⟨5, 1⟩ .left, .add ⟨4, 2⟩ .right,
      .add ⟨5, 1⟩ .right] ∧ IsSmall terms ∧
    Denotes ((ofIntegerTerms terms).reduce.coefficient 2) (-1 : ℤ) ∧
    Denotes ((ofIntegerTerms terms).reduce.coefficient 1) (0 : ℤ) ∧
    (ofIntegerTerms terms.reverse).reduce = (ofIntegerTerms terms).reduce ∧
    (ofIntegerTerms (terms.map exchange)).reduce = (ofIntegerTerms terms).reduce.negate := by
  have h3 : Denotes 3 (3 : ℤ) := denotes_of_eq (by rfl) (by norm_num)
  have h4 : Denotes 4 (4 : ℤ) := denotes_of_eq (by rfl) (by norm_num)
  have h5 : Denotes 5 (5 : ℤ) := denotes_of_eq (by rfl) (by norm_num)
  have hsmall : IsSmall [⟨3, 3, 2, .left, h3⟩, ⟨5, 5, 1, .left, h5⟩, ⟨4, 4, 2, .right, h4⟩,
      ⟨5, 5, 1, .right, h5⟩] := by
    intro n
    rcases eq_or_ne 2 n with rfl | h2
    · simp
    · rcases eq_or_ne 1 n with rfl | h1 <;> simp [*]
  obtain ⟨hsum, hperm, -, hexchange⟩ := reduce_ofIntegerTerms hsmall
  exact ⟨_, rfl, hsmall, hsum 2, hsum 1, hperm _ (List.reverse_perm _), hexchange⟩

end Equation

end PolyEq
