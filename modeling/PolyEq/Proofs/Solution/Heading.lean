import PolyEq.Proofs.Report
import PolyEq.Proofs.Solution.Derivation

/-! # The heading of a derivation

A linear or quadratic equation is written once more at the head of its derivation, with every
coefficient and in descending order. What is read from this line is reduced to the same equation.
-/

namespace PolyEq

open Binary64
open Display (number)

variable {e : Equation} {l : List Char} {x : Float} {line rest text : String}

/-- A text with powers as they are read: `^2` stands for each square. -/
def expandSquares (text : List Char) : List Char :=
  text.flatMap fun c => if c = '²' then "^2".toList else [c]

def plainPowers (text : String) : String :=
  .ofList (expandSquares text.toList)

theorem expandSquares_append (l m : List Char) :
    expandSquares (l ++ m) = expandSquares l ++ expandSquares m :=
  List.flatMap_append

theorem expandSquares_eq_self (h : '²' ∉ l) : expandSquares l = l := by
  induction l with
  | nil => rfl
  | cons c l ih =>
    obtain ⟨hc, hl⟩ := not_or.mp (mt List.mem_cons.mpr h)
    have hcons : expandSquares (c :: l) = [c] ++ expandSquares l := by
      rw [← List.singleton_append, expandSquares_append]
      simp [expandSquares, Ne.symm hc]
    rw [hcons, ih hl]
    rfl

theorem square_notMem_numberText (hx : x.isFinite = true) : '²' ∉ Display.numberText x := by
  have h : '²' ∉ (Decimal.shortest x).text := fun h =>
    (Decimal.isPlain_text _).ne_of_mem h (by decide) (by decide) rfl
  rw [Display.numberText_eq hx]
  cases Display.sign x with
  | positive => exact h
  | negative => simpa [Display.signed] using h

theorem square_notMem_laterSummand (h : '²' ∉ l) : '²' ∉ laterSummand l := by
  unfold laterSummand
  split
  · simpa using h
  · simpa using h

theorem reduceText_eq (he : Equation.read text = .ok e) : reduceText text = .ok e.reduce.form := by
  unfold reduceText
  rw [he]
  rfl

theorem Equation.form_congr {e e' : Equation} (h : e.terms = e'.terms) : e.form = e'.form := by
  unfold form formText
  rw [h]

def IsHeading (line rest : String) : Prop :=
  line = "Linear equation: " ++ rest ∨ line = "Quadratic equation: " ++ rest

def NoHeading (line : String) : Prop :=
  ∀ c ∈ line.toList.head?, c ≠ 'L' ∧ c ≠ 'Q'

theorem NoHeading.not_isHeading (h : NoHeading line) : ¬ IsHeading line rest := by
  rintro (rfl | rfl)
  · exact (h 'L' (by simp [String.toList_append])).1 rfl
  · exact (h 'Q' (by simp [String.toList_append])).2 rfl

namespace Solution

theorem Root.noHeading_lines (r : Root) : ∀ line ∈ r.lines, NoHeading line := by
  cases r with
  | exact value approximation =>
    unfold Root.lines
    dsimp only
    split_ifs <;> simp [NoHeading, unknown]
  | decimal value => simp [Root.lines, NoHeading, unknown]

theorem noHeading_approximatePair (x y : Float) :
    ∀ line ∈ approximatePair x y, NoHeading line := by
  simp [approximatePair, NoHeading, unknown]

theorem Pair.noHeading_lines (p : Pair) : ∀ line ∈ p.lines, NoHeading line := by
  cases p with
  | exact first second approximateFirst approximateSecond =>
    have happrox := noHeading_approximatePair approximateFirst approximateSecond
    unfold Pair.lines
    rw [List.forall_mem_append]
    constructor
    · simp [NoHeading, unknown]
    · split_ifs
      · simp
      · exact List.forall_mem_cons.mpr ⟨by simp [NoHeading], happrox⟩
  | decimal first second =>
    exact List.forall_mem_cons.mpr ⟨by simp [NoHeading], noHeading_approximatePair first second⟩

theorem noHeading_conjugatePair (relation re im : String) :
    ∀ line ∈ conjugatePair relation re im, NoHeading line := by
  simp [conjugatePair, NoHeading, unknown]

theorem Conjugates.noHeading_lines (c : Conjugates) : ∀ line ∈ c.lines, NoHeading line := by
  cases c <;>
    exact List.forall_mem_cons.mpr ⟨by simp [NoHeading], noHeading_conjugatePair _ _ _⟩

theorem Roots.noHeading_lines (d : Float) (r : Roots) : ∀ line ∈ r.lines d, NoHeading line := by
  cases r with
  | double root => exact List.forall_mem_cons.mpr ⟨by simp [NoHeading], root.noHeading_lines⟩
  | real sqrtDiscriminant pair =>
    unfold Roots.lines
    dsimp only
    rw [List.forall_mem_append]
    exact ⟨by simp [NoHeading], pair.noHeading_lines⟩
  | complex re im form? =>
    unfold Roots.lines
    dsimp only
    rw [List.forall_mem_append, List.forall_mem_cons]
    refine ⟨⟨by simp [NoHeading], ?_⟩, noHeading_conjugatePair _ _ _⟩
    cases form? with
    | none => simp [NoHeading]
    | some conjugates =>
      rw [List.forall_mem_append]
      exact ⟨conjugates.noHeading_lines, by simp [NoHeading]⟩

theorem Linear.eq_of_isHeading {s : Linear} (hline : line ∈ s.lines) (h : IsHeading line rest) :
    line = s!"Linear equation: {number s.a} * {unknown} = {number (-s.b)}" := by
  unfold Linear.lines at hline
  simp only [List.mem_append, List.mem_cons, List.not_mem_nil, or_false] at hline
  rcases hline with (hline | hline | hline | hline) | hline
  · exact absurd h (NoHeading.not_isHeading (by simp [hline, NoHeading]))
  · exact hline
  · exact absurd h (NoHeading.not_isHeading (by simp [hline, NoHeading]))
  · exact absurd h (NoHeading.not_isHeading (by simp [hline, NoHeading]))
  · exact absurd h (s.root.noHeading_lines line hline).not_isHeading

theorem Quadratic.eq_of_isHeading {s : Quadratic} (hline : line ∈ s.lines)
    (h : IsHeading line rest) : line = s!"Quadratic equation: {s.polynomial} = 0" := by
  unfold Quadratic.lines at hline
  simp only [List.mem_append, List.mem_cons, List.not_mem_nil, or_false] at hline
  rcases hline with (hline | hline | hline) | hline
  · exact absurd h (NoHeading.not_isHeading (by simp [hline, NoHeading]))
  · exact hline
  · exact absurd h (NoHeading.not_isHeading (by simp [hline, NoHeading]))
  · exact absurd h (s.roots.noHeading_lines _ line hline).not_isHeading

theorem Linear.exists_heading (s : Linear) : ∃ line ∈ s.lines, ∃ rest, IsHeading line rest := by
  refine ⟨s!"Linear equation: {number s.a} * {unknown} = {number (-s.b)}", by simp [Linear.lines],
    s!"{number s.a} * {unknown} = {number (-s.b)}", .inl ?_⟩
  simp only [String.append_assoc]
  rfl

theorem Quadratic.exists_heading (s : Quadratic) :
    ∃ line ∈ s.lines, ∃ rest, IsHeading line rest := by
  refine ⟨s!"Quadratic equation: {s.polynomial} = 0", by simp [Quadratic.lines],
    s!"{s.polynomial} = 0", .inr ?_⟩
  simp only [String.append_assoc]
  rfl

theorem Linear.toList_rest {s : Linear}
    (h : IsHeading s!"Linear equation: {number s.a} * {unknown} = {number (-s.b)}" rest) :
    rest.toList = Term.text ⟨s.a, 1⟩ ++ " = ".toList ++ Display.numberText (-s.b) := by
  rcases h with h | h <;> have h := congrArg String.toList h <;>
    simp [String.toList_append, number] at h
  simp [← h, Term.text]

theorem Quadratic.toList_rest {s : Quadratic}
    (h : IsHeading s!"Quadratic equation: {s.polynomial} = 0" rest) :
    rest.toList = s.polynomial.toList ++ " = 0".toList := by
  rcases h with h | h <;> have h := congrArg String.toList h <;>
    simp [String.toList_append] at h
  simp [← h]

theorem Quadratic.expandSquares_polynomial (s : Quadratic) (ha : s.a.isFinite = true)
    (hb : s.b.isFinite = true) (hc : s.c.isFinite = true) :
    expandSquares s.polynomial.toList =
      sumText ([⟨s.a, 2⟩, ⟨s.b, 1⟩, ⟨s.c, 0⟩].map Term.text) := by
  have hfirst : expandSquares (Display.numberText s.a ++ " * ".toList ++ [unknown, '²']) =
      Term.text ⟨s.a, 2⟩ := by
    have hpower : expandSquares (" * ".toList ++ [unknown, '²']) = " * X^2".toList := by decide
    have hexponent : Nat.toDigits 10 2 = ['2'] := by decide
    rw [List.append_assoc, expandSquares_append, hpower,
      expandSquares_eq_self (square_notMem_numberText ha)]
    simp [Term.text, unknown, hexponent]
  have hsecond : '²' ∉ Display.numberText s.b ++ " * ".toList ++ [unknown] := by
    simpa [unknown] using square_notMem_numberText hb
  have h1 := expandSquares_eq_self (square_notMem_laterSummand hsecond)
  have h0 := expandSquares_eq_self (square_notMem_laterSummand (square_notMem_numberText hc))
  have hsum (k l m : List Char) : sumText [k, l, m] = k ++ (laterSummand l ++ laterSummand m) := by
    simp [sumText]
  rw [Quadratic.polynomial, String.toList_ofList, hsum, expandSquares_append, hfirst,
    expandSquares_append, h1, h0]
  exact (hsum _ _ _).symm

end Solution

namespace Equation

open Solution

theorem terms_reduce_of_degree_le (hd : e.reduce.degree ≤ 2) : e.reduce.terms =
    [(⟨e.reduce.coefficient 0, 0⟩ : Term), ⟨e.reduce.coefficient 1, 1⟩,
      ⟨e.reduce.coefficient 2, 2⟩].filter Term.isSignificant := by
  refine terms_reduce_eq_filter [0, 1, 2] (by decide) fun t ht => ?_
  have hle : t.exponent ≤ e.reduce.degree := e.reduce.ascending.le_lastExponent ht
  simpa using eq_of_le_two (UInt64.le_trans hle hd)

theorem terms_reduce_of_degree_one (hd : e.reduce.degree = 1) : e.reduce.terms =
    [(⟨e.reduce.coefficient 0, 0⟩ : Term), ⟨e.reduce.coefficient 1, 1⟩].filter
      Term.isSignificant := by
  have hsquare : e.reduce.coefficient 2 = 0 := coefficient_of_degree_lt (by rw [hd]; decide)
  have hzero : [(⟨0, 2⟩ : Term)].filter Term.isSignificant = [] :=
    List.filter_eq_nil_iff.mpr (by simp [Term.not_isSignificant (t := ⟨0, 2⟩) denotes_zero])
  have h := terms_reduce_of_degree_le (e := e) (by rw [hd]; decide)
  rw [hsquare] at h
  refine (h.trans (List.filter_append [_, _] [_])).trans ?_
  rw [hzero, List.append_nil]

theorem readText_linear_heading {a b : Float} (ha : Display.Legible a) (hb : Display.Legible b) :
    ∃ e', readText (Term.text ⟨a, 1⟩ ++ " = ".toList ++ Display.numberText (-b)) = .ok e' ∧
      e'.reduce.terms = [(⟨b, 0⟩ : Term), ⟨a, 1⟩].filter Term.isSignificant := by
  have hleft : ∀ t ∈ [(⟨a, 1⟩ : Term)], Display.Legible t.coefficient := by simpa using ha
  by_cases hv : value b = 0
  · obtain rfl := hb.eq_zero hv
    have hzero : Term.isSignificant ⟨0, 0⟩ = false := Term.not_isSignificant denotes_zero
    have hdrop : [(⟨0, 0⟩ : Term), ⟨a, 1⟩].filter Term.isSignificant =
        [⟨a, 1⟩].filter Term.isSignificant := List.filter_cons_of_neg (by simp [hzero])
    have htext : Display.numberText (-0) = ['0'] := by decide +kernel
    have hread := readText_sumText (List.cons_ne_nil _ _) hleft
    rw [List.map_singleton, sumText_singleton] at hread
    refine ⟨_, by rw [htext, List.append_assoc]; exact hread, ?_⟩
    rw [terms_reduce_ofSides hleft (List.pairwise_singleton _ _), hdrop]
  · have hneg : (-b).isFinite = true := by rw [isFinite_neg, hb.isFinite]
    have hright : ∀ t ∈ [(⟨-b, 0⟩ : Term)], Display.Legible t.coefficient := by
      simpa using Display.legible_of_value_ne hneg (by simpa [value_neg] using hv)
    have hread := readText_sums (List.cons_ne_nil _ _) (List.cons_ne_nil _ _) hleft hright
    have hterms : (ofSides [⟨a, 1⟩] [⟨-b, 0⟩]).terms = [⟨- -b, 0⟩, ⟨a, 1⟩] := rfl
    have hconstant : Term.text ⟨-b, 0⟩ = Display.numberText (-b) := by simp [Term.text]
    rw [List.map_singleton, List.map_singleton, sumText_singleton, sumText_singleton,
      hconstant] at hread
    refine ⟨_, hread, ?_⟩
    unfold reduce
    dsimp only
    rw [hterms, float_neg_neg]

theorem readText_quadratic_heading {a b c : Float} (ha : Display.Legible a)
    (hb : Display.Legible b) (hc : Display.Legible c) :
    ∃ e', readText (sumText ([⟨a, 2⟩, ⟨b, 1⟩, ⟨c, 0⟩].map Term.text) ++ " = 0".toList) = .ok e' ∧
      e'.reduce.terms = [(⟨c, 0⟩ : Term), ⟨b, 1⟩, ⟨a, 2⟩].filter Term.isSignificant := by
  have hterms : (empty.addAll [⟨a, 2⟩, ⟨b, 1⟩, ⟨c, 0⟩] .left).terms =
      [⟨c, 0⟩, ⟨b, 1⟩, ⟨a, 2⟩] := rfl
  refine ⟨_, readText_sumText (List.cons_ne_nil _ _) (by simp [ha, hb, hc]), ?_⟩
  rw [terms_reduce_ofSides_zero (by simp [hterms, ha, hb, hc]), hterms]

end Equation

theorem reduceText_plainPowers {e' : Equation}
    (hread : Equation.readText (expandSquares rest.toList) = .ok e')
    (hterms : e'.reduce.terms = e.reduce.terms) :
    reduceText (plainPowers rest) = .ok e.reduce.form := by
  have he : Equation.read (plainPowers rest) = .ok e' := by
    rwa [Equation.read, plainPowers, String.toList_ofList]
  rw [reduceText_eq he, Equation.form_congr hterms]

namespace Solution

theorem reduceText_heading_linear (hd : e.reduce.degree = 1)
    (hf : (Solution.linear (.ofEquation e.reduce)).isFinite = true)
    (hline : line ∈ (Linear.ofEquation e.reduce).lines) (h : IsHeading line rest) :
    reduceText (plainPowers rest) = .ok e.reduce.form := by
  simp only [isFinite, values, List.all_cons, Bool.and_eq_true] at hf
  obtain ⟨ha, hb, -⟩ := hf
  obtain rfl := Linear.eq_of_isHeading hline h
  obtain ⟨e', hread, hterms⟩ := Equation.readText_linear_heading
    (Equation.legible_coefficient ha) (Equation.legible_coefficient hb)
  refine reduceText_plainPowers ?_ (hterms.trans (Equation.terms_reduce_of_degree_one hd).symm)
  have hneg : (-e.reduce.coefficient 0).isFinite = true := (isFinite_neg _).trans hb
  rw [Linear.toList_rest h, expandSquares_eq_self]
  · exact hread
  · have ha := square_notMem_numberText ha
    have hb := square_notMem_numberText hneg
    simp [Term.text, unknown, Linear.ofEquation] at ha hb ⊢
    exact ⟨ha, hb⟩

theorem reduceText_heading_quadratic (hd : e.reduce.degree = 2)
    (hf : (Solution.quadratic (.ofEquation e.reduce)).isFinite = true)
    (hline : line ∈ (Quadratic.ofEquation e.reduce).lines) (h : IsHeading line rest) :
    reduceText (plainPowers rest) = .ok e.reduce.form := by
  simp only [isFinite, values, List.all_cons, Bool.and_eq_true] at hf
  obtain ⟨ha, hb, hc, -⟩ := hf
  obtain rfl := Quadratic.eq_of_isHeading hline h
  obtain ⟨e', hread, hterms⟩ := Equation.readText_quadratic_heading
    (Equation.legible_coefficient ha) (Equation.legible_coefficient hb)
    (Equation.legible_coefficient hc)
  have hle : e.reduce.degree ≤ 2 := by rw [hd]; exact UInt64.le_refl 2
  refine reduceText_plainPowers ?_ (hterms.trans (Equation.terms_reduce_of_degree_le hle).symm)
  have hzero : expandSquares " = 0".toList = " = 0".toList := by decide
  rw [Quadratic.toList_rest h, expandSquares_append, hzero,
    Quadratic.expandSquares_polynomial _ ha hb hc]
  exact hread

end Solution

namespace Report

/-- The heading of a linear or quadratic derivation is the equation itself: it is there, and
reading and reducing what it shows gives the reduced form of the report. -/
theorem reduceText_heading {r : Report} (h : ofText text = .ok r)
    (hs : (∃ s, r.solution = .linear s) ∨ ∃ s, r.solution = .quadratic s) :
    (∃ line ∈ r.steps, ∃ rest, IsHeading line rest) ∧
      ∀ line ∈ r.steps, ∀ rest, IsHeading line rest →
        reduceText (plainPowers rest) = .ok r.reducedForm := by
  obtain ⟨e, -, rfl⟩ := ofText_eq_ok_iff.mp h
  have hsolved := Solution.solved_solve e.reduce
  unfold steps
  dsimp only at hs ⊢
  generalize e.reduce.solve = solution at hs hsolved ⊢
  cases hsolved with
  | linear hd hf =>
    refine ⟨Solution.Linear.exists_heading _, fun line hline rest h => ?_⟩
    exact Solution.reduceText_heading_linear hd hf hline h
  | quadratic hd hf =>
    refine ⟨Solution.Quadratic.exists_heading _, fun line hline rest h => ?_⟩
    exact Solution.reduceText_heading_quadratic hd hf hline h
  | allReals | noSolution | outOfRange | unsolvable => simp at hs

/-- The absent linear term is shown with the coefficient zero, and read without an effect. -/
theorem reduceText_heading_pure_quadratic : ∃ text rest r s, text = "2*X^2 = 8" ∧
    rest = "2 * X² + 0 * X - 8 = 0" ∧ ofText text = .ok r ∧ r.solution = .quadratic s ∧
    "Quadratic equation: " ++ rest ∈ r.steps ∧
    reduceText (plainPowers rest) = .ok r.reducedForm := by
  have hany : (ofText "2*X^2 = 8").toOption.any (fun r => r.solution.realRoots.length == 2 &&
      r.steps.contains "Quadratic equation: 2 * X² + 0 * X - 8 = 0") = true := by
    decide +kernel
  obtain ⟨r, hr, h⟩ := exists_ok_of_any hany
  rw [Bool.and_eq_true, List.contains_iff_mem] at h
  obtain ⟨hroots, hline⟩ := h
  cases heq : r.solution with
  | quadratic s =>
    obtain ⟨-, hread⟩ := reduceText_heading hr (.inr ⟨s, heq⟩)
    exact ⟨_, _, r, s, rfl, rfl, hr, heq, hline, hread _ hline _ (.inr rfl)⟩
  | linear | allReals | noSolution | outOfRange | unsolvable =>
    simp [heq, Solution.realRoots] at hroots

end Report

end PolyEq
