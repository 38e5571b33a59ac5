import PolyEq.Solution.Derivation
import PolyEq.Proofs.Text.Infix

/-! # Derivations without special values

Apart from the equation itself, a derivation is clean if the floats that it prints are finite.
Approximate roots are printed after they were rounded to the display precision.
-/

namespace PolyEq

open Display (number collapsed approximate)

variable {t u v : String} {x y : Float} {l : List Char}

def CleanLine (line : String) : Prop :=
  "Equation: ".toList <+: line.toList ∨ Clean line.toList

@[simp] theorem toList_toString (t : String) : (toString t).toList = t.toList := rfl

@[simp] theorem toList_toString_char (c : Char) : (toString c).toList = [c] := by
  simp [toString]

theorem clean_insert (ht : Clean t.toList) (hv : Letterless v.toList) (hu : Clean u.toList) :
    Clean (t ++ v ++ u).toList := by
  simpa only [String.toList_append] using ht.insert hv hu

theorem clean_concat (ht : Clean t.toList) (hv : Letterless v.toList) : Clean (t ++ v).toList := by
  simpa only [String.toList_append] using ht.concat hv

namespace Display

theorem letterless_number (hx : x.isFinite = true) : Letterless (number x).toList := by
  simpa only [number, String.toList_ofList] using letterless_numberText hx

theorem letterless_collapsed (hx : x.isFinite = true) : Letterless (collapsed x).toList := by
  simpa only [collapsed, String.toList_ofList] using letterless_collapsedText hx

theorem letterless_approximate (hx : (Rounding.toDisplay x).isFinite = true) :
    Letterless (approximate x).toList := by
  simpa only [approximate, approximateText, String.toList_ofList] using letterless_collapsedText hx

end Display

theorem Fraction.letterless_display (q : ℚ) : Letterless (Fraction.display q).toList := by
  simpa only [Fraction.display, String.toList_ofList] using Fraction.letterless_text q

theorem letterless_toString (n : ℤ) : Letterless (toString n).toList :=
  (toList_toString_int n).symm ▸ letterless_integerText n

namespace Solution

open Display

def Roots.printed : Roots → List Float
  | double root => [root.value]
  | real sqrtDiscriminant pair => sqrtDiscriminant :: pair.values.map Rounding.toDisplay
  | complex re im _ => [Rounding.toDisplay re, Rounding.toDisplay im]

theorem Root.clean_lines (r : Root) (h : r.value.isFinite = true) :
    ∀ line ∈ r.lines, Clean line.toList := by
  cases r with
  | exact value approximation =>
    have hline : Clean (s!"{unknown} = {Fraction.display value}").toList :=
      clean_concat (by simp [unknown]) (Fraction.letterless_display value)
    unfold Root.lines
    dsimp only
    split_ifs
    · simpa using hline
    · refine List.forall_mem_cons.mpr ⟨hline, ?_⟩
      rw [List.forall_mem_singleton]
      exact clean_concat (by simp) (letterless_number h)
  | decimal value =>
    rw [Root.lines, List.forall_mem_singleton]
    exact clean_concat (by simp [unknown]) (letterless_collapsed h)

theorem clean_approximatePair (hx : (Rounding.toDisplay x).isFinite = true)
    (hy : (Rounding.toDisplay y).isFinite = true) :
    ∀ line ∈ approximatePair x y, Clean line.toList := by
  rw [approximatePair, List.forall_mem_cons, List.forall_mem_singleton]
  exact ⟨clean_concat (by simp [unknown]) (letterless_approximate hx),
    clean_concat (by simp [unknown]) (letterless_approximate hy)⟩

theorem Pair.clean_lines (p : Pair)
    (h : ∀ x ∈ p.values, (Rounding.toDisplay x).isFinite = true) :
    ∀ line ∈ p.lines, Clean line.toList := by
  cases p with
  | exact first second approximateFirst approximateSecond =>
    have happrox := clean_approximatePair (h approximateFirst (by simp [values]))
      (h approximateSecond (by simp [values]))
    unfold Pair.lines
    rw [List.forall_mem_append, List.forall_mem_cons, List.forall_mem_cons,
      List.forall_mem_singleton]
    refine ⟨⟨by simp, ?_, ?_⟩, ?_⟩
    · exact clean_concat (by simp [unknown]) (Fraction.letterless_display first)
    · exact clean_concat (by simp [unknown]) (Fraction.letterless_display second)
    · split_ifs
      · simp
      · exact List.forall_mem_cons.mpr ⟨by simp, happrox⟩
  | decimal first second =>
    exact List.forall_mem_cons.mpr ⟨by simp,
      clean_approximatePair (h first (by simp [values])) (h second (by simp [values]))⟩

theorem clean_conjugatePair {relation re im : String} (hrel : Letterless relation.toList)
    (hre : Letterless re.toList) (him : Clean im.toList) :
    ∀ line ∈ conjugatePair relation re im, Clean line.toList := by
  have key {t o : String} (ht : Clean t.toList) (ho : Letterless o.toList) :
      Clean (t ++ relation ++ " " ++ re ++ o ++ im).toList :=
    clean_insert (clean_concat (clean_insert ht hrel (by decide)) hre) ho him
  rw [conjugatePair, List.forall_mem_cons, List.forall_mem_singleton]
  exact ⟨key (by simp [unknown]) (by decide), key (by simp [unknown]) (by decide)⟩

theorem Conjugates.clean_lines (c : Conjugates) : ∀ line ∈ c.lines, Clean line.toList := by
  have heq : Letterless "=".toList := by decide
  cases c with
  | rational re im =>
    refine List.forall_mem_cons.mpr ⟨by simp, ?_⟩
    refine clean_conjugatePair heq (Fraction.letterless_display re) ?_
    exact clean_insert (t := "") (by decide) (Fraction.letterless_display im) (by decide)
  | radical re radicand denominator =>
    refine List.forall_mem_cons.mpr ⟨by simp, ?_⟩
    refine clean_conjugatePair heq (Fraction.letterless_display re) ?_
    exact clean_insert (clean_insert (by simp) (letterless_toString radicand)
      (by simp)) (letterless_toString denominator) (by simp)

theorem Roots.clean_lines {d : Float} (hd : d.isFinite = true) (r : Roots)
    (h : ∀ x ∈ r.printed, x.isFinite = true) : ∀ line ∈ r.lines d, Clean line.toList := by
  cases r with
  | double root =>
    exact List.forall_mem_cons.mpr ⟨by simp, root.clean_lines (h _ (by simp [printed]))⟩
  | real sqrtDiscriminant pair =>
    obtain ⟨hs, hp⟩ := List.forall_mem_cons.mp h
    rw [List.forall_mem_map] at hp
    unfold Roots.lines
    dsimp only
    rw [List.forall_mem_append, List.forall_mem_cons, List.forall_mem_singleton]
    refine ⟨⟨?_, ?_⟩, pair.clean_lines hp⟩
    · exact clean_insert (by simp) (letterless_number hd) (by simp)
    · exact clean_concat (by simp) (letterless_number hs)
  | complex re im form? =>
    have hre := letterless_approximate (h (Rounding.toDisplay re) (by simp [printed]))
    have him := letterless_approximate (h (Rounding.toDisplay im) (by simp [printed]))
    unfold Roots.lines
    dsimp only
    rw [List.forall_mem_append, List.forall_mem_cons]
    refine ⟨⟨?_, ?_⟩, clean_conjugatePair (by decide) hre ?_⟩
    · exact clean_insert (by simp) (letterless_number hd) (by simp)
    · cases form? with
      | none =>
        rw [List.forall_mem_singleton]
        simp
      | some conjugates =>
        rw [List.forall_mem_append, List.forall_mem_singleton]
        exact ⟨conjugates.clean_lines, by simp⟩
    · exact clean_insert (t := "") (by decide) him (by decide)

theorem Quadratic.clean_polynomial (s : Quadratic) (ha : s.a.isFinite = true)
    (hb : s.b.isFinite = true) (hc : s.c.isFinite = true) : Clean s.polynomial.toList := by
  obtain ⟨v, hv, hlb⟩ := exists_laterSummand (letterless_numberText hb) (" * ".toList ++ [unknown])
  obtain ⟨w, hw, hlc⟩ := exists_laterSummand (letterless_numberText hc) []
  have ht : Clean (numberText s.a ++ (" * ".toList ++ [unknown, '²'])) := by
    simpa using Clean.insert (l := []) (by decide) (letterless_numberText ha)
      (m := " * ".toList ++ [unknown, '²']) (by simp [unknown])
  rw [List.append_nil, List.append_nil] at hlc
  unfold Quadratic.polynomial
  simp only [String.toList_ofList, sumText, List.flatMap_cons, List.flatMap_nil,
    List.append_assoc, hlb, hlc, List.append_nil]
  simpa only [List.append_assoc] using
    (ht.insert hv (m := " * ".toList ++ [unknown]) (by simp [unknown])).concat hw

theorem cleanLine_equation (equation : String) : CleanLine s!"Equation: {equation}" :=
  .inl ⟨equation.toList, String.toList_append.symm⟩

theorem Linear.cleanLine_lines (s : Linear) (ha : s.a.isFinite = true) (hb : s.b.isFinite = true)
    (hr : s.root.value.isFinite = true) : ∀ line ∈ s.lines, CleanLine line := by
  have hneg : (-s.b).isFinite = true := (Binary64.isFinite_neg s.b).trans hb
  unfold Linear.lines
  simp only [List.forall_mem_append, List.forall_mem_cons]
  refine ⟨⟨cleanLine_equation _, .inr ?_, .inr ?_, .inr (by simp), by simp⟩,
    fun line hline => .inr (s.root.clean_lines hr line hline)⟩
  · refine clean_concat (clean_concat (clean_insert (clean_concat ?_ (letterless_number ha))
      ?_ ?_) ?_) (letterless_number hneg)
    all_goals simp [unknown]
  · exact clean_concat (clean_insert (by simp [unknown]) (letterless_number hb) (by simp))
      (letterless_number ha)

theorem Quadratic.cleanLine_lines (s : Quadratic) (ha : s.a.isFinite = true)
    (hb : s.b.isFinite = true) (hc : s.c.isFinite = true) (hd : s.discriminant.isFinite = true)
    (h : ∀ x ∈ s.roots.printed, x.isFinite = true) : ∀ line ∈ s.lines, CleanLine line := by
  unfold Quadratic.lines
  simp only [List.forall_mem_append, List.forall_mem_cons]
  refine ⟨⟨cleanLine_equation _, .inr ?_, .inr ?_, by simp⟩,
    fun line hline => .inr (s.roots.clean_lines hd h line hline)⟩
  · refine clean_concat ?_ (by simp)
    rw [String.toList_append]
    exact Clean.append_of_last (by simp) (s.clean_polynomial ha hb hc)
      (by simp [toString])
  · refine clean_concat (clean_insert (clean_insert (clean_insert ?_ (letterless_number hb) ?_)
      (letterless_number ha) ?_) (letterless_number hc) ?_) (letterless_number hd)
    all_goals simp

def printed : Solution → List Float
  | linear s => [s.a, s.b, s.root.value]
  | quadratic s => s.a :: s.b :: s.c :: s.discriminant :: s.roots.printed
  | _ => []

/-- If all floats that are printed are finite, every line but the equation is clean. -/
theorem cleanLine_steps (s : Solution) (h : ∀ x ∈ s.printed, x.isFinite = true) :
    ∀ line ∈ s.steps, CleanLine line := by
  have constant {equation line : String} (hline : Clean line.toList) :
      ∀ l ∈ [s!"Equation: {equation}", line], CleanLine l := by
    rw [List.forall_mem_cons, List.forall_mem_singleton]
    exact ⟨cleanLine_equation equation, .inr hline⟩
  cases s with
  | unsolvable degree =>
    rw [steps, List.forall_mem_singleton]
    exact .inr (by simp)
  | allReals equation => exact constant (by simp)
  | noSolution equation => exact constant (by simp)
  | outOfRange equation => exact constant (by simp)
  | linear s =>
    simp only [printed, List.forall_mem_cons] at h
    exact s.cleanLine_lines h.1 h.2.1 h.2.2.1
  | quadratic s =>
    simp only [printed, List.forall_mem_cons] at h
    exact s.cleanLine_lines h.1 h.2.1 h.2.2.1 h.2.2.2.1 h.2.2.2.2

end Solution

end PolyEq
