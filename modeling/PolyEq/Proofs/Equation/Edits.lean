import PolyEq.Proofs.Binary64.Special
import PolyEq.Proofs.Equation.Terms

/-! # Edits of an equation

Every equation is reached from the empty one by adding terms and reducing. What holds of the empty
equation and is kept by both edits holds of every equation that is reached. Finite terms never sum
up to a NaN.
-/

namespace PolyEq

inductive Edit where
  | add (t : Term) (side : Side)
  | reduce

namespace Edit

def apply (e : Equation) : Edit → Equation
  | add t side => e.add t side
  | reduce => e.reduce

def IsFinite : Edit → Prop
  | add t _ => t.coefficient.isFinite = true
  | reduce => True

end Edit

namespace Equation

def run (edits : List Edit) : Equation :=
  edits.foldl Edit.apply empty

variable {edits : List Edit}

@[simp] theorem run_nil : run [] = empty := rfl

@[simp] theorem run_concat (edits : List Edit) (edit : Edit) :
    run (edits ++ [edit]) = edit.apply (run edits) := by
  simp [run]

/-- What holds at the start and is kept by every admissible edit holds after all of them. -/
theorem run_induction {P : Equation → Prop} {Q : Edit → Prop} (h0 : P empty)
    (hstep : ∀ e edit, P e → Q edit → P (edit.apply e)) (h : ∀ edit ∈ edits, Q edit) :
    P (run edits) := by
  induction edits using List.reverseRecOn with
  | nil => exact h0
  | append_singleton edits edit ih =>
    rw [run_concat]
    exact hstep _ _ (ih fun d hd => h d (by simp [hd])) (h edit (by simp))

end Equation

namespace Term

variable {t : Term} {terms : List Term}

theorem forall_insert {P : Float → Prop} (ht : P t.coefficient)
    (hadd : ∀ x, P x → P (x + t.coefficient)) (h : ∀ s ∈ terms, P s.coefficient) :
    ∀ s ∈ insert t terms, P s.coefficient := by
  induction terms with
  | nil => simpa [insert] using ht
  | cons u terms ih =>
    obtain ⟨hu, hterms⟩ := List.forall_mem_cons.mp h
    unfold insert
    split_ifs
    · exact List.forall_mem_cons.mpr ⟨ht, h⟩
    · exact List.forall_mem_cons.mpr ⟨hu, ih hterms⟩
    · exact List.forall_mem_cons.mpr ⟨hadd _ hu, hterms⟩

end Term

namespace Equation

open Binary64

variable {e : Equation} {edits : List Edit} {edit : Edit}

def IsNumeric (e : Equation) : Prop :=
  ∀ t ∈ e.terms, t.coefficient.isNaN = false

theorem isFinite_orient {x : Float} (side : Side) (h : x.isFinite = true) :
    (side.orient x).isFinite = true := by
  cases side with
  | left => exact h
  | right => exact (isFinite_neg x).trans h

theorem IsNumeric.apply (he : e.IsNumeric) (h : edit.IsFinite) : (edit.apply e).IsNumeric := by
  cases edit with
  | add t side =>
    have ht := isFinite_orient side h
    exact Term.forall_insert (P := fun x => x.isNaN = false) (isNaN_of_isFinite ht)
      (fun _ hx => isNaN_add hx ht) he
  | reduce => exact fun t ht => he t (List.mem_of_mem_filter ht)

theorem isNumeric_run (h : ∀ edit ∈ edits, edit.IsFinite) : (run edits).IsNumeric :=
  run_induction (P := IsNumeric) (by simp [IsNumeric, empty]) (fun _ _ => IsNumeric.apply) h

end Equation

end PolyEq
