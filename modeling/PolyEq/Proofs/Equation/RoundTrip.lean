import PolyEq.Proofs.Equation.Sum
import PolyEq.Proofs.Equation.Terms
import PolyEq.Proofs.Term.RoundTrip

/-! # Reduced forms are read back

The reduced form of an equation with finite coefficients is read without a fault. The terms on
its left are those of the equation, in their order, and the zero on its right changes none that
reduction keeps. So reduction gives the same equation, and the same form, again.
-/

namespace PolyEq

open Binary64

variable {terms : List Term}

namespace Summand

theorem ne_equals_of_mem_text {c : Char} {s : Summand} (h : c ∈ s.text) : c ≠ '=' := by
  unfold Summand.text Display.signed at h
  cases hs : s.sign with
  | positive =>
    rw [hs] at h
    exact (s.isUnsigned_written.chars c h).2.2
  | negative =>
    rw [hs] at h
    rcases List.mem_cons.mp h with rfl | h
    · decide
    · exact (s.isUnsigned_written.chars c h).2.2

theorem ne_equals_of_mem_laterSummand {c : Char} {s : Summand} (h : c ∈ laterSummand s.text) :
    c ≠ '=' := by
  simp only [laterSummand_text] at h
  simp only [List.mem_cons] at h
  rcases h with rfl | rfl | rfl | h
  · decide
  · unfold operator
    cases s.sign <;> decide
  · decide
  · exact (s.isUnsigned_written.chars c h).2.2

theorem equals_notMem_sumText (s : Summand) (later : List Summand) :
    '=' ∉ sumText ((s :: later).map Summand.text) := by
  simp only [List.map_cons, sumText, List.flatMap_map, List.mem_append, List.mem_flatMap]
  rintro (h | ⟨t, -, h⟩)
  · exact ne_equals_of_mem_text h rfl
  · exact ne_equals_of_mem_laterSummand h rfl

theorem exists_head_sumText (s : Summand) (later : List Summand) :
    ∃ c text, sumText ((s :: later).map Summand.text) = c :: text ∧ isWhiteSpace c = false := by
  obtain ⟨c, m, h, hc⟩ := s.isUnsigned_written.head
  simp only [List.map_cons, sumText]
  unfold Summand.text Display.signed
  cases s.sign with
  | positive =>
    rw [h]
    exact ⟨c, _, rfl, isWhiteSpace_of_isDigit hc⟩
  | negative => exact ⟨'-', _, rfl, by decide⟩

theorem getLast?_sumText (s : Summand) (later : List Summand) :
    ∀ c ∈ (sumText ((s :: later).map Summand.text)).getLast?, isWhiteSpace c = false := by
  have hl (t : Summand) : ∀ c ∈ t.written.getLast?, isWhiteSpace c = false :=
    fun c hc => (t.isUnsigned_written.last c hc).2
  have h0 (t : Summand) : t.written ≠ [] := t.isUnsigned_written.ne_nil
  simp only [List.map_cons, sumText, List.flatMap_map]
  refine forall_getLast?_append (forall_getLast?_signed s.sign (hl s) (h0 s)) ?_
  refine forall_getLast?_flatMap fun t _ => ?_
  simp only [laterSummand_text]
  refine forall_getLast?_cons (forall_getLast?_cons ?_ (List.cons_ne_nil _ _))
    (List.cons_ne_nil _ _)
  exact forall_getLast?_cons (hl t) (h0 t)

theorem isSideText_sumText (s : Summand) (later : List Summand) :
    IsSideText (sumText ((s :: later).map Summand.text)) := by
  obtain ⟨c, m, hm, hc⟩ := exists_head_sumText s later
  refine ⟨⟨?_, getLast?_sumText s later⟩, hm ▸ List.cons_ne_nil _ _, equals_notMem_sumText s later⟩
  rw [hm]
  rintro _ ⟨rfl⟩
  exact hc

end Summand

theorem Term.result_readSide_sumText (h0 : terms ≠ [])
    (h : ∀ t ∈ terms, Display.Legible t.coefficient) :
    IsSideText (sumText (terms.map Term.text)) ∧
      ∀ side, (readSide side (sumText (terms.map Term.text))).result = .ok terms := by
  have hs : terms.map Term.text = terms.map fun t => t.summand.text :=
    List.map_congr_left fun t ht => (Term.text_summand (h t ht).isFinite).symm
  rw [hs]
  constructor
  · obtain ⟨t, later, rfl⟩ := List.exists_cons_of_ne_nil h0
    have hside := Summand.isSideText_sumText t.summand (later.map Term.summand)
    rwa [← List.map_cons, List.map_map] at hside
  · intro side
    exact result_readSide side h0 fun t ht => Term.read_fragment (h t ht)

namespace Equation

variable {e : Equation}

theorem readText_sums {ls rs : List Term} (hl0 : ls ≠ []) (hr0 : rs ≠ [])
    (hl : ∀ t ∈ ls, Display.Legible t.coefficient) (hr : ∀ t ∈ rs, Display.Legible t.coefficient) :
    readText (sumText (ls.map Term.text) ++ " = ".toList ++ sumText (rs.map Term.text)) =
      .ok (ofSides ls rs) := by
  obtain ⟨hleft, hls⟩ := Term.result_readSide_sumText hl0 hl
  obtain ⟨hright, hrs⟩ := Term.result_readSide_sumText hr0 hr
  rw [readText_spaced_eq_ok_iff hleft.toIsTrimmed hright.toIsTrimmed]
  exact ⟨⟨hleft, hright⟩, ls, rs, hls .left, hrs .right, rfl⟩

theorem forall_legible_zero : ∀ t ∈ [(⟨0, 0⟩ : Term)], Display.Legible t.coefficient := by
  simpa using Display.legible_zero

theorem readText_sumText (h0 : terms ≠ []) (h : ∀ t ∈ terms, Display.Legible t.coefficient) :
    readText (sumText (terms.map Term.text) ++ " = 0".toList) = .ok (ofSides terms [⟨0, 0⟩]) := by
  have hz : sumText ([(⟨0, 0⟩ : Term)].map Term.text) = ['0'] := by decide +kernel
  have hread := readText_sums h0 (List.cons_ne_nil _ _) h forall_legible_zero
  rw [hz, List.append_assoc] at hread
  exact hread

def shown (e : Equation) : List Term :=
  if e.terms.filter Term.isSignificant = [] then [⟨0, 0⟩]
  else e.terms.filter Term.isSignificant

theorem shown_ne_nil (e : Equation) : e.shown ≠ [] := by
  unfold shown
  split_ifs with h
  · exact List.cons_ne_nil _ _
  · exact h

theorem formText_eq (e : Equation) :
    e.formText = sumText (e.shown.map Term.text) ++ " = 0".toList := by
  unfold formText shown
  cases e.terms.filter Term.isSignificant with
  | nil => decide +kernel
  | cons t terms => rfl

theorem filter_shown (e : Equation) :
    e.shown.filter Term.isSignificant = e.terms.filter Term.isSignificant := by
  unfold shown
  split_ifs with h
  · have hz : Term.isSignificant ⟨0, 0⟩ = false :=
      Term.not_isSignificant (t := ⟨0, 0⟩) denotes_zero
    simp only [h, List.filter_cons, hz]
    rfl
  · simp only [List.filter_filter]
    simp only [Bool.and_self]

theorem ascending_shown (e : Equation) : Term.Ascending e.shown := by
  unfold shown
  split_ifs
  · exact List.pairwise_singleton _ _
  · exact e.ascending.filter _

theorem legible_shown (h : ∀ t ∈ e.terms, t.coefficient.isFinite = true) :
    ∀ t ∈ e.shown, Display.Legible t.coefficient := by
  intro t ht
  unfold shown at ht
  split_ifs at ht
  · obtain rfl := List.mem_singleton.mp ht
    exact Display.legible_zero
  · obtain ⟨ht, hs⟩ := List.mem_filter.mp ht
    exact Display.legible_of_value_ne (h t ht) (Term.value_ne_zero (h t ht) hs)

/-- What is read from the reduced form of an equation with finite coefficients is reduced to the
same terms, the same degree and the same form. -/
theorem read_form (e : Equation) (h : ∀ t ∈ e.terms, t.coefficient.isFinite = true) :
    ∃ e', Equation.read e.reduce.form = .ok e' ∧ e'.reduce.terms = e.reduce.terms ∧
      e'.reduce.degree = e.reduce.degree ∧ e'.reduce.form = e.reduce.form := by
  have hterms : e.reduce.terms.filter Term.isSignificant = e.reduce.terms := by
    simp [reduce]
  have hfin : ∀ t ∈ e.reduce.terms, t.coefficient.isFinite = true :=
    fun t ht => h t (List.mem_filter.mp ht).1
  have hl := legible_shown hfin
  have ht : (ofSides e.reduce.shown [⟨0, 0⟩]).reduce.terms = e.reduce.terms := by
    simp [terms_reduce_ofSides hl e.reduce.ascending_shown, filter_shown, hterms]
  refine ⟨ofSides e.reduce.shown [⟨0, 0⟩], ?_, ht, congrArg Term.lastExponent ht, ?_⟩
  · simp only [read, form, String.toList_ofList, formText_eq]
    exact readText_sumText e.reduce.shown_ne_nil hl
  · simp [form, formText, ht]

theorem read_form_large_exponent : ∃ e : Equation,
    e = ((empty.add ⟨-2.5, 18446744073709551615⟩ .left).add ⟨0.1, 1⟩ .right).add ⟨1e-20, 0⟩ .left ∧
      (∀ t ∈ e.terms, t.coefficient.isFinite = true) ∧
      ∃ e', Equation.read e.reduce.form = .ok e' ∧ e'.reduce.terms = e.reduce.terms ∧
        e'.reduce.degree = e.reduce.degree ∧ e'.reduce.form = e.reduce.form := by
  refine ⟨_, rfl, ?_⟩
  have h : ∀ t ∈ (((empty.add ⟨-2.5, 18446744073709551615⟩ .left).add ⟨0.1, 1⟩ .right).add
      ⟨1e-20, 0⟩ .left).terms, t.coefficient.isFinite = true := by
    decide +kernel
  exact ⟨h, read_form _ h⟩

end Equation

end PolyEq
