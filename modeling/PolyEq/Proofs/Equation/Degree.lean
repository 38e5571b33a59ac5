import PolyEq.Proofs.Equation.Edits
import PolyEq.Proofs.Equation.RoundTrip

/-! # The degree

After an addition the degree is that of the terms beyond the tolerance, after a reduction that of
the terms that reach it. The two agree, and the degree is that of the reduced form, unless the
last term shown lies on the tolerance and was not reduced since.
-/

namespace PolyEq

open Binary64

namespace Term

variable {s t : Term} {terms : List Term}

@[simp] theorem lastExponent_concat (terms : List Term) (t : Term) :
    lastExponent (terms ++ [t]) = t.exponent := by
  simp [lastExponent]

theorem exists_mem_lastExponent (h : terms ≠ []) :
    ∃ t ∈ terms, t.exponent = lastExponent terms := by
  obtain rfl | ⟨terms, t, rfl⟩ := terms.eq_nil_or_concat'
  · exact absurd rfl h
  · exact ⟨t, by simp, by simp⟩

theorem Ascending.lt_of_mem (h : Ascending (terms ++ [t])) (hs : s ∈ terms) :
    s.exponent < t.exponent :=
  (List.pairwise_append.mp h).2.2 s hs t (by simp)

theorem Ascending.le_lastExponent (h : Ascending terms) (hs : s ∈ terms) :
    s.exponent ≤ lastExponent terms := by
  obtain rfl | ⟨terms, t, rfl⟩ := terms.eq_nil_or_concat'
  · cases hs
  · rw [lastExponent_concat]
    rcases List.mem_append.mp hs with hs | hs
    · exact UInt64.le_of_lt (h.lt_of_mem hs)
    · obtain rfl := List.mem_singleton.mp hs
      exact UInt64.le_refl _

theorem isSignificant_iff_exceeds :
    t.isSignificant = true ↔ t.exceedsTolerance = true ∨ t.coefficient.abs = epsilon := by
  simp only [isSignificant, exceedsTolerance, decide_eq_true_iff]
  exact epsilon_le_abs_iff

theorem isSignificant_of_exceeds (h : t.exceedsTolerance = true) : t.isSignificant = true :=
  isSignificant_iff_exceeds.mpr (.inl h)

theorem filter_exceeds_filter (terms : List Term) :
    (terms.filter isSignificant).filter exceedsTolerance = terms.filter exceedsTolerance := by
  simp only [List.filter_filter]
  refine List.filter_congr fun t _ => ?_
  cases h : t.exceedsTolerance with
  | false => rfl
  | true => simp [isSignificant_of_exceeds h]

theorem exceeds_iff_of_isSignificant (h : t.isSignificant = true) :
    t.exceedsTolerance = true ↔ t.coefficient.abs ≠ epsilon := by
  refine ⟨fun he hc => ?_, (isSignificant_iff_exceeds.mp h).resolve_right⟩
  simp only [exceedsTolerance, decide_eq_true_iff, hc] at he
  exact absurd ((denotes_epsilon.lt_iff denotes_epsilon).mp he) (lt_irrefl _)

theorem Ascending.lastExponent_filter_exceeds (h : Ascending terms)
    (hs : ∀ t ∈ terms, t.isSignificant = true) :
    lastExponent (terms.filter exceedsTolerance) = lastExponent terms ↔
      ¬ ∃ t ∈ terms.getLast?, t.exponent ≠ 0 ∧ t.coefficient.abs = epsilon := by
  obtain rfl | ⟨terms, t, rfl⟩ := terms.eq_nil_or_concat'
  · simp
  have ht := exceeds_iff_of_isSignificant (hs t (by simp))
  rw [lastExponent_concat, List.filter_append]
  by_cases he : t.coefficient.abs = epsilon
  · have hf : [t].filter exceedsTolerance = [] := by simp [ht, he]
    rw [hf, List.append_nil]
    rcases eq_or_ne (terms.filter exceedsTolerance) [] with hnil | hne
    · simp [hnil, lastExponent, he, eq_comm]
    · -- an earlier term has a smaller exponent, so the last one is not zero
      obtain ⟨u, hu, hlast⟩ := exists_mem_lastExponent hne
      have hlt := h.lt_of_mem (List.mem_of_mem_filter hu)
      have h0 : t.exponent ≠ 0 := (UInt64.pos_iff_ne_zero.mp (UInt64.lt_of_le_of_lt
        UInt64.zero_le hlt))
      rw [← hlast]
      refine iff_of_false (UInt64.ne_of_lt hlt) (not_not.mpr ⟨t, by simp, h0, he⟩)
  · have hf : [t].filter exceedsTolerance = [t] := by simp [ht, he]
    rw [hf, lastExponent_concat]
    exact iff_of_true rfl (by simp [he])

end Term

namespace Equation

variable {e : Equation} {edits : List Edit} {edit : Edit} {t : Term} {d : UInt64}

def DegreeAttained (e : Equation) : Prop :=
  e.degree = 0 ∨ ∃ t ∈ e.terms, t.isSignificant = true ∧ t.exponent = e.degree

/-- `d` is the largest exponent with a coefficient that is not negligible, or zero. -/
def IsHighest (e : Equation) (d : UInt64) : Prop :=
  (∀ t ∈ e.terms, isNegligible t.coefficient = false → t.exponent ≤ d) ∧
    (d = 0 ∨ ∃ t ∈ e.terms, isNegligible t.coefficient = false ∧ t.exponent = d)

/-- The last term of the reduced form is no constant, and it lies on the tolerance. -/
def Borderline (e : Equation) : Prop :=
  ∃ t ∈ e.shown.getLast?, t.exponent ≠ 0 ∧ t.coefficient.abs = epsilon

theorem lastExponent_filter_cases (terms : List Term) (p : Term → Bool) :
    Term.lastExponent (terms.filter p) = 0 ∨
      ∃ t ∈ terms, p t = true ∧ t.exponent = Term.lastExponent (terms.filter p) := by
  rcases eq_or_ne (terms.filter p) [] with h | h
  · exact .inl (by rw [h]; rfl)
  · obtain ⟨t, ht, hlast⟩ := Term.exists_mem_lastExponent h
    obtain ⟨ht, hp⟩ := List.mem_filter.mp ht
    exact .inr ⟨t, ht, hp, hlast⟩

theorem degreeAttained_apply (e : Equation) (edit : Edit) : DegreeAttained (edit.apply e) := by
  cases edit with
  | add t side =>
    rcases lastExponent_filter_cases (e.add t side).terms Term.exceedsTolerance with
      h | ⟨s, hs, hp, h⟩
    · exact .inl h
    · exact .inr ⟨s, hs, Term.isSignificant_of_exceeds hp, h⟩
  | reduce =>
    rcases lastExponent_filter_cases e.terms Term.isSignificant with h | ⟨s, hs, hp, h⟩
    · exact .inl h
    · exact .inr ⟨s, List.mem_filter.mpr ⟨hs, hp⟩, hp, h⟩

theorem degreeAttained_run (edits : List Edit) : DegreeAttained (run edits) :=
  run_induction (Q := fun _ => True) (.inl rfl) (fun e edit _ _ => degreeAttained_apply e edit)
    (fun _ _ => trivial)

theorem lastExponent_shown (e : Equation) :
    Term.lastExponent e.shown = Term.lastExponent (e.terms.filter Term.isSignificant) := by
  unfold shown
  split_ifs with h
  · rw [h]; rfl
  · rfl

theorem degree_reduce (e : Equation) : e.reduce.degree = Term.lastExponent e.shown :=
  (lastExponent_shown e).symm

theorem shown_reduce (e : Equation) : e.reduce.shown = e.shown := by
  simp [shown, reduce]

theorem borderline_iff : e.Borderline ↔ ∃ t ∈ (e.terms.filter Term.isSignificant).getLast?,
    t.exponent ≠ 0 ∧ t.coefficient.abs = epsilon := by
  unfold Borderline shown
  split_ifs with h
  · simp [h]
  · rfl

theorem degree_add_eq_iff (e : Equation) (t : Term) (side : Side) :
    (e.add t side).degree = Term.lastExponent (e.add t side).shown ↔
      ¬ (e.add t side).Borderline := by
  have hs : ∀ s ∈ (e.add t side).terms.filter Term.isSignificant, s.isSignificant = true :=
    fun s hs => (List.mem_filter.mp hs).2
  have h := ((e.add t side).ascending.filter Term.isSignificant).lastExponent_filter_exceeds hs
  rw [Term.filter_exceeds_filter] at h
  rw [lastExponent_shown, borderline_iff]
  exact h

/-- The degree is that of the reduced form, except after an addition that leaves the last term on
the tolerance. -/
theorem degree_run_eq_iff (edits : List Edit) :
    (run edits).degree = Term.lastExponent (run edits).shown ↔
      edits.getLast? = some .reduce ∨ ¬ (run edits).Borderline := by
  obtain rfl | ⟨edits, edit, rfl⟩ := edits.eq_nil_or_concat'
  · refine iff_of_true rfl (.inr ?_)
    simp [borderline_iff, empty]
  · rw [run_concat]
    cases edit with
    | add t side => simpa [Edit.apply] using degree_add_eq_iff (run edits) t side
    | reduce =>
      refine iff_of_true ?_ (.inl (by simp))
      rw [Edit.apply, degree_reduce, shown_reduce]

theorem IsNumeric.isHighest_iff (h : e.IsNumeric) :
    e.IsHighest d ↔ d = Term.lastExponent e.shown := by
  have hneg : ∀ t ∈ e.terms, isNegligible t.coefficient = false ↔ t.isSignificant = true :=
    fun t ht => (isNegligible_eq_false_iff (h t ht)).trans
      (by rw [Term.isSignificant, decide_eq_true_iff])
  have hle : ∀ t ∈ e.terms, t.isSignificant = true →
      t.exponent ≤ Term.lastExponent (e.terms.filter Term.isSignificant) :=
    fun t ht hs => (e.ascending.filter _).le_lastExponent (List.mem_filter.mpr ⟨ht, hs⟩)
  rw [lastExponent_shown]
  constructor
  · rintro ⟨hall, hatt⟩
    refine UInt64.le_antisymm ?_ ?_
    · obtain rfl | ⟨t, ht, hn, rfl⟩ := hatt
      · exact UInt64.zero_le
      · exact hle t ht ((hneg t ht).mp hn)
    · rcases lastExponent_filter_cases e.terms Term.isSignificant with h0 | ⟨t, ht, hs, hlast⟩
      · rw [h0]; exact UInt64.zero_le
      · rw [← hlast]; exact hall t ht ((hneg t ht).mpr hs)
  · rintro rfl
    refine ⟨fun t ht hn => hle t ht ((hneg t ht).mp hn), ?_⟩
    rcases lastExponent_filter_cases e.terms Term.isSignificant with h0 | ⟨t, ht, hs, hlast⟩
    · exact .inl h0
    · exact .inr ⟨t, ht, (hneg t ht).mpr hs, hlast⟩

/-- After any edits with finite terms the degree is the last exponent of the reduced form, and the
largest with a coefficient that is not negligible, and kept by reduction, exactly if the last edit
was a reduction or the last term shown does not lie on the tolerance. -/
theorem degree_agrees_iff (h : ∀ edit ∈ edits, edit.IsFinite) :
    ((run edits).degree = Term.lastExponent (run edits).shown ↔
      edits.getLast? = some .reduce ∨ ¬ (run edits).Borderline) ∧
    ((run edits).IsHighest (run edits).degree ↔
      edits.getLast? = some .reduce ∨ ¬ (run edits).Borderline) ∧
    ((run edits).reduce.degree = (run edits).degree ↔
      edits.getLast? = some .reduce ∨ ¬ (run edits).Borderline) := by
  have hrun := degree_run_eq_iff edits
  refine ⟨hrun, (isNumeric_run h).isHighest_iff.trans hrun, ?_⟩
  rw [degree_reduce, eq_comm]
  exact hrun

/-- The cubic terms of `X ^ 3 + 2 * X = X ^ 3` cancel, and the degree is one. -/
theorem degree_cancelled_cubic : ∃ edits : List Edit,
    edits = [.add ⟨1, 3⟩ .left, .add ⟨2, 1⟩ .left, .add ⟨1, 3⟩ .right] ∧
      (∀ edit ∈ edits, edit.IsFinite) ∧ (run edits).degree = 1 ∧
      (run edits).degree = Term.lastExponent (run edits).shown ∧
      (run edits).IsHighest (run edits).degree ∧
      (run edits).reduce.degree = (run edits).degree := by
  refine ⟨_, rfl, ?_⟩
  have h : ∀ edit ∈ [Edit.add ⟨1, 3⟩ .left, .add ⟨2, 1⟩ .left, .add ⟨1, 3⟩ .right],
      edit.IsFinite := by
    simp [Edit.IsFinite, denotes_one.isFinite, denotes_two.isFinite]
  obtain ⟨hdeg, hhigh, hred⟩ := degree_agrees_iff h
  have hd : (run [.add ⟨1, 3⟩ .left, .add ⟨2, 1⟩ .left, .add ⟨1, 3⟩ .right]).degree =
      Term.lastExponent (run [.add ⟨1, 3⟩ .left, .add ⟨2, 1⟩ .left, .add ⟨1, 3⟩ .right]).shown := by
    decide +kernel
  have hc := hdeg.mp hd
  exact ⟨h, by decide +kernel, hd, hhigh.mpr hc, hred.mpr hc⟩

/-- A cubic term on the tolerance is shown, but the degree passes over it until reduction. -/
theorem degree_ne_on_tolerance : ∃ edits : List Edit,
    edits = [.add ⟨1e-10, 3⟩ .left] ∧ (∀ edit ∈ edits, edit.IsFinite) ∧
      (run edits).degree = 0 ∧ Term.lastExponent (run edits).shown = 3 ∧
      (run edits).reduce.degree = 3 := by
  refine ⟨_, rfl, ?_, by decide +kernel, by decide +kernel, by decide +kernel⟩
  intro edit h
  obtain rfl := List.mem_singleton.mp h
  exact denotes_epsilon.isFinite

end Equation

end PolyEq
