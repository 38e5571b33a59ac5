import PolyEq.Side
import PolyEq.Term
import PolyEq.Tolerance

/-! # Equations

An equation is kept as a polynomial that equals zero: terms from the right side are
negated as they are added. There is one term for each exponent, in ascending order, and
the degree is kept up to date with every change.
-/

namespace PolyEq

namespace Term

/-- Whether the coefficient reaches the tolerance, so that reduction keeps the term. -/
def isSignificant (t : Term) : Bool :=
  t.coefficient.abs ≥ epsilon

def exceedsTolerance (t : Term) : Bool :=
  t.coefficient.abs > epsilon

/-- Adds a term at its place. A term with the same exponent absorbs the coefficient. -/
def insert (t : Term) : List Term → List Term
  | [] => [t]
  | s :: terms =>
    if t.exponent < s.exponent then t :: s :: terms
    else if s.exponent < t.exponent then s :: insert t terms
    else ⟨s.coefficient + t.coefficient, s.exponent⟩ :: terms

/-- The exponent of the last term, zero if there is none. -/
def lastExponent (terms : List Term) : UInt64 :=
  (terms.getLast?.map Term.exponent).getD 0

def Ascending (terms : List Term) : Prop :=
  terms.Pairwise fun s t => s.exponent < t.exponent

variable {s t : Term} {terms : List Term}

theorem exponent_of_mem_insert (h : s ∈ insert t terms) :
    s.exponent = t.exponent ∨ ∃ u ∈ terms, s.exponent = u.exponent := by
  induction terms with
  | nil => simp_all [insert]
  | cons u terms ih =>
    unfold insert at h
    split at h
    · rcases List.mem_cons.mp h with rfl | h
      · exact .inl rfl
      · exact .inr ⟨s, h, rfl⟩
    · split at h
      · rcases List.mem_cons.mp h with rfl | h
        · exact .inr ⟨s, List.mem_cons_self, rfl⟩
        · rcases ih h with h | ⟨v, hv, h⟩
          · exact .inl h
          · exact .inr ⟨v, List.mem_cons_of_mem _ hv, h⟩
      · rcases List.mem_cons.mp h with rfl | h
        · exact .inr ⟨u, List.mem_cons_self, rfl⟩
        · exact .inr ⟨s, List.mem_cons_of_mem _ h, rfl⟩

theorem Ascending.insert (h : Ascending terms) (t : Term) : Ascending (insert t terms) := by
  induction terms with
  | nil => exact List.pairwise_singleton _ _
  | cons u terms ih =>
    obtain ⟨hu, ht⟩ := List.pairwise_cons.mp h
    unfold Term.insert
    split
    · next htu =>
      refine List.pairwise_cons.mpr ⟨fun s hs => ?_, h⟩
      rcases List.mem_cons.mp hs with rfl | hs
      · exact htu
      · exact UInt64.lt_trans htu (hu s hs)
    · split
      · next hut =>
        refine List.pairwise_cons.mpr ⟨fun s hs => ?_, ih ht⟩
        rcases exponent_of_mem_insert hs with hs | ⟨v, hv, hs⟩
        · exact hs ▸ hut
        · exact hs ▸ hu v hv
      · exact List.pairwise_cons.mpr ⟨hu, ht⟩

theorem Ascending.filter (h : Ascending terms) (p : Term → Bool) : Ascending (terms.filter p) :=
  List.Pairwise.filter p h

end Term

/-- The polynomial `terms`, set equal to zero. -/
structure Equation where
  terms : List Term
  degree : UInt64
  ascending : Term.Ascending terms

namespace Equation

def empty : Equation :=
  ⟨[], 0, .nil⟩

/-- Adds a term found on a side. The degree becomes that of the terms beyond the tolerance. -/
def add (e : Equation) (t : Term) (side : Side) : Equation :=
  let terms := Term.insert ⟨side.orient t.coefficient, t.exponent⟩ e.terms
  ⟨terms, Term.lastExponent (terms.filter Term.exceedsTolerance), e.ascending.insert _⟩

def addAll (e : Equation) (terms : List Term) (side : Side) : Equation :=
  terms.foldl (fun e t => e.add t side) e

/-- Drops the terms whose coefficients do not reach the tolerance. -/
def reduce (e : Equation) : Equation :=
  let terms := e.terms.filter Term.isSignificant
  ⟨terms, Term.lastExponent terms, e.ascending.filter _⟩

def coefficient (e : Equation) (exponent : UInt64) : Float :=
  ((e.terms.find? (·.exponent == exponent)).map Term.coefficient).getD 0

def isEmpty (e : Equation) : Bool :=
  e.terms.all fun t => isNegligible t.coefficient

end Equation

end PolyEq
