import PolyEq.Proofs.Equation.Edits
import PolyEq.Proofs.Equation.Shown
import PolyEq.Proofs.Equation.Signs
import PolyEq.Proofs.Term.Grammar

/-! # Empty equations

Every equation that is read is made of finite terms, and finite terms leave no NaN. So a
coefficient is either negligible or kept by reduction, and an equation is empty exactly if nothing
of it is shown, and exactly if nothing is left of it when it is reduced.
-/

namespace PolyEq

open Binary64

variable {f text : List Char} {fs : List (List Char)} {t : Term} {reads : List ReadTerm}
  {terms left right : List Term} {side : Side} {e : Equation}

theorem Term.isFinite_of_read (h : Term.read f = .ok (some t)) :
    t.coefficient.isFinite = true := by
  obtain ⟨u, hu, rfl⟩ := Term.read_eq_some_iff.mp h
  have hfinite := Term.isFinite_of_readUnsigned hu
  unfold Term.withSignOf
  split_ifs
  · exact (isFinite_neg _).trans hfinite
  · exact hfinite

def AllFinite (terms : List Term) : Prop :=
  ∀ t ∈ terms, t.coefficient.isFinite = true

theorem allFinite_of_readFragments (h : readFragments fs = (reads, none)) :
    AllFinite (reads.map ReadTerm.term) := by
  induction fs generalizing reads with
  | nil =>
    cases h
    exact nofun
  | cons f fs ih =>
    obtain ⟨t?, reads', hf, h', hterms⟩ := readFragments_cons_ok h
    intro t ht
    rw [hterms, List.mem_append] at ht
    rcases ht with ht | ht
    · rw [Option.mem_toList] at ht
      exact Term.isFinite_of_read (ht ▸ hf)
    · exact ih h' t ht

theorem allFinite_of_result (h : (readSide side text).result = .ok terms) : AllFinite terms := by
  obtain ⟨-, -, -, reads, hreads, rfl⟩ := result_readSide_eq_ok_iff.mp h
  exact allFinite_of_readFragments hreads

namespace Equation

def sideEdits (left right : List Term) : List Edit :=
  left.map (Edit.add · .left) ++ right.map (Edit.add · .right)

theorem run_sideEdits (left right : List Term) :
    run (sideEdits left right) = ofSides left right := by
  rw [run, sideEdits, List.foldl_append, List.foldl_map, List.foldl_map]
  rfl

theorem isFinite_sideEdits (hl : AllFinite left) (hr : AllFinite right) :
    ∀ edit ∈ sideEdits left right, edit.IsFinite := by
  rw [sideEdits, List.forall_mem_append, List.forall_mem_map, List.forall_mem_map]
  exact ⟨hl, hr⟩

theorem exists_run_of_readText (h : readText text = .ok e) :
    ∃ edits, (∀ edit ∈ edits, edit.IsFinite) ∧ run edits = e := by
  obtain ⟨left, right, leftTerms, rightTerms, -, hl, hr, rfl⟩ := exists_of_readText h
  exact ⟨sideEdits leftTerms rightTerms,
    isFinite_sideEdits (allFinite_of_result hl) (allFinite_of_result hr), run_sideEdits _ _⟩

theorem IsNumeric.isEmpty_iff (h : e.IsNumeric) : e.isEmpty = true ↔ e.reduce.terms = [] := by
  change e.terms.all _ = true ↔ e.terms.filter Term.isSignificant = []
  rw [List.all_eq_true, List.filter_eq_nil_iff]
  refine forall₂_congr fun t ht => ?_
  have hneg := isNegligible_eq_false_iff (h t ht)
  rw [Term.isSignificant, decide_eq_true_iff, ge_iff_le, ← hneg, Bool.not_eq_false]

/-- Finite terms never leave a NaN, and all three ways to tell that an equation is empty agree.
This holds of every equation that is read, as only finite terms are. -/
theorem emptiness_agrees :
    (∀ edits : List Edit, (∀ edit ∈ edits, edit.IsFinite) →
      (∀ t ∈ (run edits).terms, t.coefficient.isNaN = false) ∧
      ((run edits).isEmpty = true ↔ (run edits).form = "0 = 0") ∧
      ((run edits).isEmpty = true ↔ (run edits).reduce.terms = [])) ∧
    ∀ text e, read text = .ok e →
      ∃ edits, (∀ edit ∈ edits, edit.IsFinite) ∧ run edits = e := by
  refine ⟨fun edits h => ?_, fun text e he => exists_run_of_readText he⟩
  have hnumeric := isNumeric_run h
  exact ⟨hnumeric, hnumeric.isEmpty_iff.trans form_eq_zero_iff.symm, hnumeric.isEmpty_iff⟩

/-- The sum of two large terms is infinite, and stays so when one of them is taken back. -/
theorem emptiness_agrees_infinite : ∃ edits : List Edit,
    edits = [.add ⟨1e308, 1⟩ .left, .add ⟨1e308, 1⟩ .left, .add ⟨1e308, 1⟩ .right] ∧
      (∀ edit ∈ edits, edit.IsFinite) ∧ ((run edits).coefficient 1).isInf = true ∧
      (∀ t ∈ (run edits).terms, t.coefficient.isNaN = false) ∧
      (run edits).isEmpty = false ∧ (run edits).form ≠ "0 = 0" ∧
      (run edits).reduce.terms ≠ [] := by
  have hfinite : (1e308 : Float).isFinite = true := by decide +kernel
  have h : ∀ edit ∈ [Edit.add ⟨1e308, 1⟩ .left, .add ⟨1e308, 1⟩ .left, .add ⟨1e308, 1⟩ .right],
      edit.IsFinite := by
    simp [Edit.IsFinite, hfinite]
  obtain ⟨hnumeric, hform, hterms⟩ := emptiness_agrees.1 _ h
  have hempty : (run [.add ⟨1e308, 1⟩ .left, .add ⟨1e308, 1⟩ .left,
      .add ⟨1e308, 1⟩ .right]).isEmpty = false := by
    decide +kernel
  have hne := Bool.eq_false_iff.mp hempty
  exact ⟨_, rfl, h, by decide +kernel, hnumeric, hempty, mt hform.mpr hne, mt hterms.mpr hne⟩

end Equation

end PolyEq
