import PolyEq.Proofs.Binary64.Opposite
import PolyEq.Proofs.Equation.Edits
import PolyEq.Term.Reading

/-! # Exchanging the sides

An equation is negated when its sides are exchanged. The terms keep their exponents, the
coefficients become opposite ones, and the degree stays the same.
-/

namespace PolyEq

open Binary64

def Side.exchange : Side → Side
  | left => right
  | right => left

def Edit.exchange : Edit → Edit
  | add t side => add t side.exchange
  | reduce => reduce

namespace Term

structure Opposite (s t : Term) : Prop where
  exponent : t.exponent = s.exponent
  coefficient : Alike (-s.coefficient) t.coefficient

variable {s t : Term} {l l' : List Term}

theorem opposite_negate (t : Term) : Opposite t t.negate :=
  ⟨rfl, .inl rfl⟩

theorem Opposite.isSignificant_eq (h : Opposite s t) : t.isSignificant = s.isSignificant := by
  unfold isSignificant
  rw [h.coefficient.abs_eq]

theorem Opposite.exceedsTolerance_eq (h : Opposite s t) :
    t.exceedsTolerance = s.exceedsTolerance := by
  unfold exceedsTolerance
  rw [h.coefficient.abs_eq]

theorem forall₂_insert (ht : Opposite s t) (h : List.Forall₂ Opposite l l') :
    List.Forall₂ Opposite (insert s l) (insert t l') := by
  induction h with
  | nil => exact .cons ht .nil
  | @cons u v l l' huv htail ih =>
    unfold insert
    rw [ht.exponent, huv.exponent]
    split_ifs
    · exact .cons ht (.cons huv htail)
    · exact .cons huv ih
    · exact .cons ⟨rfl, huv.coefficient.opposite_add ht.coefficient⟩ htail

theorem forall₂_filter {p : Term → Bool} (hp : ∀ s t, Opposite s t → p t = p s)
    (h : List.Forall₂ Opposite l l') :
    List.Forall₂ Opposite (l.filter p) (l'.filter p) := by
  refine List.rel_filter (fun s t hst => ?_) h
  change p s = true ↔ p t = true
  rw [hp s t hst]

theorem lastExponent_eq (h : List.Forall₂ Opposite l l') : lastExponent l' = lastExponent l := by
  have hmap : l'.map exponent = l.map exponent := by
    induction h with
    | nil => rfl
    | cons hst _ ih => rw [List.map_cons, List.map_cons, hst.exponent, ih]
  unfold lastExponent
  rw [← List.getLast?_map, ← List.getLast?_map, hmap]

end Term

theorem Side.alike_exchange (side : Side) (x : Float) :
    Alike (-side.orient x) (side.exchange.orient x) := by
  cases side with
  | left => exact .inl rfl
  | right => exact .inl (float_neg_neg x)

namespace Equation

def negate (e : Equation) : Equation :=
  ⟨e.terms.map Term.negate, e.degree, List.pairwise_map.mpr e.ascending⟩

structure Opposite (e e' : Equation) : Prop where
  terms : List.Forall₂ Term.Opposite e.terms e'.terms
  degree : e'.degree = e.degree

variable {e e' : Equation}

theorem opposite_negate (e : Equation) : e.Opposite e.negate :=
  ⟨List.forall₂_map_right_iff.mpr (List.forall₂_same.mpr fun t _ => t.opposite_negate), rfl⟩

theorem Opposite.add (h : e.Opposite e') (t : Term) (side : Side) :
    (e.add t side).Opposite (e'.add t side.exchange) := by
  have ht : Term.Opposite ⟨side.orient t.coefficient, t.exponent⟩
      ⟨side.exchange.orient t.coefficient, t.exponent⟩ :=
    ⟨rfl, side.alike_exchange t.coefficient⟩
  have hterms := Term.forall₂_insert ht h.terms
  have hfilter := Term.forall₂_filter (fun _ _ hst => hst.exceedsTolerance_eq) hterms
  exact ⟨hterms, Term.lastExponent_eq hfilter⟩

theorem Opposite.reduce (h : e.Opposite e') : e.reduce.Opposite e'.reduce := by
  have hfilter := Term.forall₂_filter (fun _ _ hst => hst.isSignificant_eq) h.terms
  exact ⟨hfilter, Term.lastExponent_eq hfilter⟩

theorem Opposite.apply (h : e.Opposite e') (edit : Edit) :
    Opposite (edit.apply e) (edit.exchange.apply e') := by
  cases edit with
  | add t side => exact h.add t side
  | reduce => exact h.reduce

theorem opposite_run (edits : List Edit) :
    Opposite (run edits) (run (edits.map Edit.exchange)) := by
  induction edits using List.reverseRecOn with
  | nil => exact ⟨.nil, rfl⟩
  | append_singleton edits edit ih =>
    rw [List.map_append, List.map_singleton, run_concat, run_concat]
    exact ih.apply edit

theorem Opposite.coefficient (h : e.Opposite e') (n : UInt64) :
    Binary64.Opposite (e.coefficient n) (e'.coefficient n) := by
  have hterms := h.terms
  unfold Equation.coefficient
  generalize e.terms = l at hterms
  generalize e'.terms = l' at hterms
  induction hterms with
  | nil => exact ⟨rfl, by simp⟩
  | @cons s t _ _ hst _ ih =>
    rw [List.find?_cons, List.find?_cons, hst.exponent]
    cases s.exponent == n
    · exact ih
    · exact hst.coefficient.opposite

end Equation

end PolyEq
