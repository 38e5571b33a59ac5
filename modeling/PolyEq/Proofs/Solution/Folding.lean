import PolyEq.Proofs.Decimal.Summands
import PolyEq.Proofs.Report
import PolyEq.Proofs.Solution.Magnitude
import PolyEq.Proofs.Solution.Quadratic

/-! # Derivations with folded signs

Every line is put together from texts without a clash and numbers. A number with a sign stands
first in a sum, is joined to it by its sign, or follows a text that does not end in an operator.
Only the imaginary parts stand after an operator in any case, and they are not negative.
-/

namespace PolyEq

open Binary64
open Display (number collapsed approximate)

variable {l : List Char} {t u v : String} {x y : Float} {q : ℚ} {e : Equation}

theorem ready_insert (ht : Ready t.toList) (hv : IsSummand v.toList) (hu : Ready u.toList) :
    Ready (t ++ v ++ u).toList := by
  simpa only [String.toList_append] using ht.insert_ready hv hu

theorem ready_concat (ht : Ready t.toList) (hv : IsSummand v.toList) : Ready (t ++ v).toList := by
  simpa only [String.toList_append, List.append_nil] using ht.insert_ready hv ready_nil

/-- A text that may follow any operator. -/
def KeepsFolded (text : List Char) : Prop :=
  ∀ l, Folded l → Folded (l ++ text)

theorem IsMagnitude.keepsFolded (h : IsMagnitude l) : KeepsFolded l :=
  fun _ hl => hl.append_of_notMem fun hm => (h.notSign _ hm).2 rfl

namespace Solution

open Display

def Roots.Upright : Roots → Prop
  | complex _ im form? => 0 ≤ value im ∧ ∀ re q, form? = some (.rational re q) → 0 ≤ q
  | _ => True

theorem Root.folded_lines (r : Root) (h : r.value.isFinite = true) :
    ∀ line ∈ r.lines, Folded line.toList := by
  cases r with
  | exact value approximation =>
    have hline : Ready (s!"{unknown} = {Fraction.display value}").toList :=
      ready_concat (by simp [unknown]) (Fraction.isSummand_display value)
    unfold Root.lines
    dsimp only
    split_ifs
    · simpa using hline.folded
    · refine List.forall_mem_cons.mpr ⟨hline.folded, ?_⟩
      rw [List.forall_mem_singleton]
      exact (ready_concat (by simp) (isSummand_number h)).folded
  | decimal value =>
    rw [Root.lines, List.forall_mem_singleton]
    exact (ready_concat (by simp [unknown]) (isSummand_collapsed h)).folded

theorem folded_approximatePair (hx : (Rounding.toDisplay x).isFinite = true)
    (hy : (Rounding.toDisplay y).isFinite = true) :
    ∀ line ∈ approximatePair x y, Folded line.toList := by
  rw [approximatePair, List.forall_mem_cons, List.forall_mem_singleton]
  exact ⟨(ready_concat (by simp [unknown]) (isSummand_approximate hx)).folded,
    (ready_concat (by simp [unknown]) (isSummand_approximate hy)).folded⟩

theorem Pair.folded_lines (p : Pair)
    (h : ∀ x ∈ p.values, (Rounding.toDisplay x).isFinite = true) :
    ∀ line ∈ p.lines, Folded line.toList := by
  cases p with
  | exact first second approximateFirst approximateSecond =>
    have happrox := folded_approximatePair (h approximateFirst (by simp [values]))
      (h approximateSecond (by simp [values]))
    unfold Pair.lines
    rw [List.forall_mem_append, List.forall_mem_cons, List.forall_mem_cons,
      List.forall_mem_singleton]
    refine ⟨⟨by simp, ?_, ?_⟩, ?_⟩
    · exact (ready_concat (by simp [unknown]) (Fraction.isSummand_display first)).folded
    · exact (ready_concat (by simp [unknown]) (Fraction.isSummand_display second)).folded
    · split_ifs
      · simp
      · exact List.forall_mem_cons.mpr ⟨by simp, happrox⟩
  | decimal first second =>
    exact List.forall_mem_cons.mpr ⟨by simp,
      folded_approximatePair (h first (by simp [values])) (h second (by simp [values]))⟩

theorem folded_conjugatePair {relation re im : String} (hrel : IsMagnitude relation.toList)
    (hre : IsSummand re.toList) (him : KeepsFolded im.toList) :
    ∀ line ∈ conjugatePair relation re im, Folded line.toList := by
  have key {t o : String} (ht : Ready t.toList) (ho : Folded o.toList) :
      Folded (t ++ relation ++ " " ++ re ++ o ++ im).toList := by
    have h := (ready_insert ht hrel.isSummand (u := " ") (by decide)).insert hre ho
    simpa only [String.toList_append] using him _ h
  rw [conjugatePair, List.forall_mem_cons, List.forall_mem_singleton]
  exact ⟨key (by simp [unknown]) (by decide), key (by simp [unknown]) (by decide)⟩

theorem keepsFolded_imaginary (h : IsMagnitude v.toList) : KeepsFolded (s!"{v}i").toList := by
  have him : IsMagnitude (v.toList ++ ['i']) := h.append (by simp) (by simp)
  simpa using him.keepsFolded

/-- The sign of a radicand would stand in brackets. -/
theorem keepsFolded_radical (radicand denominator : ℤ) :
    KeepsFolded (s!"√({radicand})/{denominator} i").toList := by
  intro l hl
  have hroot : Ready (l ++ "√(".toList) := by
    rw [Ready, List.append_assoc]
    exact hl.append_of_head (by simp) (by simp)
  have h := (hroot.insert_ready (isSummand_toString radicand) (m := ")/".toList) (by decide)).insert
    (isSummand_toString denominator) (m := " i".toList) (by decide)
  simpa [List.append_assoc] using h

theorem Conjugates.folded_lines (c : Conjugates) (h : ∀ re q, c = .rational re q → 0 ≤ q) :
    ∀ line ∈ c.lines, Folded line.toList := by
  have hrel : IsMagnitude "=".toList := ⟨by simp, by simp, by simp⟩
  cases c with
  | rational re im =>
    have him := keepsFolded_imaginary (Fraction.isMagnitude_display (h re im rfl))
    exact List.forall_mem_cons.mpr ⟨by simp,
      folded_conjugatePair hrel (Fraction.isSummand_display re) him⟩
  | radical re radicand denominator =>
    have him := keepsFolded_radical radicand denominator
    exact List.forall_mem_cons.mpr ⟨by simp,
      folded_conjugatePair hrel (Fraction.isSummand_display re) him⟩

theorem Roots.folded_lines {d : Float} (hd : d.isFinite = true) (r : Roots)
    (h : ∀ x ∈ r.printed, x.isFinite = true) (hr : r.Upright) :
    ∀ line ∈ r.lines d, Folded line.toList := by
  cases r with
  | double root =>
    exact List.forall_mem_cons.mpr ⟨by simp, root.folded_lines (h _ (by simp [printed]))⟩
  | real sqrtDiscriminant pair =>
    obtain ⟨hs, hp⟩ := List.forall_mem_cons.mp h
    rw [List.forall_mem_map] at hp
    unfold Roots.lines
    dsimp only
    rw [List.forall_mem_append, List.forall_mem_cons, List.forall_mem_singleton]
    refine ⟨⟨?_, ?_⟩, pair.folded_lines hp⟩
    · exact (ready_insert (by simp) (isSummand_number hd) (by simp)).folded
    · exact (ready_concat (by simp) (isSummand_number hs)).folded
  | complex re im form? =>
    have hre := isSummand_approximate (h (Rounding.toDisplay re) (by simp [printed]))
    have him := isMagnitude_approximate (h (Rounding.toDisplay im) (by simp [printed])) hr.1
    have hrel : IsMagnitude "≈".toList := ⟨by simp, by simp, by simp⟩
    unfold Roots.lines
    dsimp only
    rw [List.forall_mem_append, List.forall_mem_cons]
    refine ⟨⟨?_, ?_⟩, folded_conjugatePair hrel hre (keepsFolded_imaginary him)⟩
    · exact (ready_insert (by simp) (isSummand_number hd) (by simp)).folded
    · cases form? with
      | none =>
        rw [List.forall_mem_singleton]
        simp
      | some conjugates =>
        rw [List.forall_mem_append, List.forall_mem_singleton]
        exact ⟨conjugates.folded_lines fun re q hc => hr.2 re q (congrArg some hc), by simp⟩

theorem Quadratic.folded_polynomial (s : Quadratic) (ha : s.a.isFinite = true)
    (hb : s.b.isFinite = true) (hc : s.c.isFinite = true) :
    Folded (s!"Quadratic equation: {s.polynomial} = 0").toList := by
  have hsummand : ∀ t ∈ [numberText s.a ++ " * ".toList ++ [unknown, '²'],
      numberText s.b ++ " * ".toList ++ [unknown], numberText s.c], IsSummand t := by
    simp only [List.forall_mem_cons, List.append_assoc]
    refine ⟨?_, ?_, isSummand_numberText hc, by simp⟩
    · exact (isSummand_numberText ha).append (by simp [unknown]) (by simp)
    · exact (isSummand_numberText hb).append (by simp [unknown]) (by simp [unknown])
  have h := Ready.insert_sum (l := "Quadratic equation: ".toList) (m := " = 0".toList) (by simp)
    hsummand (by simp) (by simp)
  simpa [Quadratic.polynomial] using h

def RepeatsFolded (equation : String) : Prop :=
  Folded (s!"Equation: {equation}").toList

theorem Linear.folded_lines (s : Linear) (he : RepeatsFolded s.equation)
    (ha : s.a.isFinite = true) (hb : s.b.isFinite = true) (hr : s.root.value.isFinite = true) :
    ∀ line ∈ s.lines, Folded line.toList := by
  have hneg : (-s.b).isFinite = true := (isFinite_neg s.b).trans hb
  have hunknown : IsMagnitude (toString unknown).toList := by
    constructor <;> simp [unknown]
  have hequation : Ready
      (s!"Linear equation: {number s.a} * {unknown} = {number (-s.b)}").toList := by
    refine ready_concat (ready_insert (ready_insert ?_ (isSummand_number ha) ?_)
      hunknown.isSummand ?_) (isSummand_number hneg)
    all_goals simp
  have hroot : Ready (s!"Solution is {unknown} = -({number s.b}) / {number s.a}").toList :=
    ready_concat (ready_insert (by simp [unknown]) (isSummand_number hb) (by simp))
      (isSummand_number ha)
  unfold Linear.lines
  rw [List.forall_mem_append, List.forall_mem_cons, List.forall_mem_cons, List.forall_mem_cons,
    List.forall_mem_singleton]
  exact ⟨⟨he, hequation.folded, hroot.folded, by simp⟩, s.root.folded_lines hr⟩

theorem Quadratic.folded_lines (s : Quadratic) (he : RepeatsFolded s.equation)
    (ha : s.a.isFinite = true) (hb : s.b.isFinite = true) (hc : s.c.isFinite = true)
    (hd : s.discriminant.isFinite = true) (h : ∀ x ∈ s.roots.printed, x.isFinite = true)
    (hr : s.roots.Upright) : ∀ line ∈ s.lines, Folded line.toList := by
  unfold Quadratic.lines
  simp only [List.forall_mem_append, List.forall_mem_cons]
  refine ⟨⟨he, s.folded_polynomial ha hb hc, Ready.folded ?_, by simp⟩,
    s.roots.folded_lines hd h hr⟩
  refine ready_concat (ready_insert (ready_insert (ready_insert ?_ (isSummand_number hb) ?_)
    (isSummand_number ha) ?_) (isSummand_number hc) ?_) (isSummand_number hd)
  all_goals simp

def Upright : Solution → Prop
  | quadratic s => s.roots.Upright
  | _ => True

/-- If all floats that are printed are finite, the signs are folded in every line. -/
theorem folded_steps (s : Solution) (h : ∀ x ∈ s.printed, x.isFinite = true) (hs : s.Upright)
    (he : ∀ t ∈ s.equation?, RepeatsFolded t) : ∀ line ∈ s.steps, Folded line.toList := by
  cases s with
  | unsolvable degree =>
    rw [steps, List.forall_mem_singleton]
    simp
  | allReals t | noSolution t | outOfRange t =>
    rw [steps, List.forall_mem_cons, List.forall_mem_singleton]
    exact ⟨he t rfl, by simp⟩
  | linear s =>
    simp only [printed, List.forall_mem_cons] at h
    exact s.folded_lines (he _ rfl) h.1 h.2.1 h.2.2.1
  | quadratic s =>
    simp only [printed, List.forall_mem_cons] at h
    exact s.folded_lines (he _ rfl) h.1 h.2.1 h.2.2.1 h.2.2.2.1 h.2.2.2.2 hs

theorem imaginary_nonneg {a b k : ℤ} {re : ℚ}
    (h : exactConjugates? a b k = some (.rational re q)) : 0 ≤ q := by
  obtain ⟨real, -, heq | ⟨root, imaginary, -, -, heq⟩⟩ := exactConjugates?_cases h <;> cases heq
  exact (rat_abs_eq imaginary).symm ▸ abs_nonneg imaginary

theorem upright_ofNegative (a b c d : Float) : (Roots.ofNegative a b c d).Upright := by
  refine ⟨?_, fun re q hq => ?_⟩
  · rw [value_abs]
    exact abs_nonneg _
  · obtain ⟨parts, -, h⟩ := Option.bind_eq_some_iff.mp hq
    exact imaginary_nonneg h

theorem upright_ofCoefficients (a b c d : Float) : (Roots.ofCoefficients a b c d).Upright := by
  unfold Roots.ofCoefficients
  split_ifs
  · trivial
  · unfold Roots.ofPositive
    dsimp only
    split <;> trivial
  · exact upright_ofNegative a b c d

theorem upright_solve (e : Equation) : e.solve.Upright := by
  have hsolved := solved_solve e
  generalize e.solve = solution at hsolved ⊢
  cases hsolved with
  | quadratic => exact upright_ofCoefficients _ _ _ _
  | _ => trivial

end Solution

namespace Equation

theorem folded_form (e : Equation) (hl : Ready l) : Folded (l ++ e.form.toList) := by
  have hsummand : ∀ t ∈ e.shown.map Term.text, IsSummand t := by
    simpa using fun t ht => Term.isSummand_text (e.definite_shown t ht)
  have h0 : e.shown.map Term.text ≠ [] := by simpa using e.shown_ne_nil
  rw [form, String.toList_ofList, formText_eq, ← List.append_assoc]
  exact hl.insert_sum hsummand h0 (by simp)

end Equation

namespace Report

variable {r : Report} {text : String}

/-- In every line that a report shows, the signs are folded. -/
theorem signs_folded (h : ofText text = .ok r) : ∀ line ∈ r.reducedForm :: r.steps,
    ¬ "+ -".toList <:+: line.toList ∧ ¬ "- -".toList <:+: line.toList ∧
      ¬ "--".toList <:+: line.toList := by
  obtain ⟨e, -, rfl⟩ := ofText_eq_ok_iff.mp h
  have hequation := (consistent_reduce e).equation
  have hprinted := Solution.isFinite_printed (Equation.degreeAttained_apply e .reduce)
  have hrepeats : ∀ t ∈ e.reduce.solve.equation?, Solution.RepeatsFolded t := by
    intro t ht
    rw [hequation] at ht
    split_ifs at ht
    · cases ht
    · cases ht
      simpa [Solution.RepeatsFolded] using
        e.reduce.folded_form (l := "Equation: ".toList) (by simp)
  refine List.forall_mem_cons.mpr ⟨?_, fun line hline => folded_iff.mp ?_⟩
  · exact folded_iff.mp (e.reduce.folded_form (l := []) ready_nil)
  · exact e.reduce.solve.folded_steps hprinted (Solution.upright_solve _) hrepeats line hline

/-- All coefficients are negative, and so is twice the leading one, which divides the square root
of the imaginary part. -/
theorem signs_folded_negative : ∃ text r, text = "-X^2 - 2*X = 5" ∧ ofText text = .ok r ∧
    r.reducedForm = "-5 - 2 * X - 1 * X^2 = 0" ∧ "X₂ = -1 - 2i" ∈ r.steps ∧
    ∀ line ∈ r.reducedForm :: r.steps, ¬ "+ -".toList <:+: line.toList ∧
      ¬ "- -".toList <:+: line.toList ∧ ¬ "--".toList <:+: line.toList := by
  have hany : (ofText "-X^2 - 2*X = 5").toOption.any (fun r =>
      r.reducedForm == "-5 - 2 * X - 1 * X^2 = 0" && r.steps.contains "X₂ = -1 - 2i") = true := by
    decide +kernel
  obtain ⟨r, hr, h⟩ := exists_ok_of_any hany
  rw [Bool.and_eq_true, beq_iff_eq, List.contains_iff_mem] at h
  exact ⟨_, r, rfl, hr, h.1, h.2, signs_folded hr⟩

end Report

end PolyEq
