import PolyEq.Proofs.Equation.Exchange
import PolyEq.Proofs.Solution.Magnitude
import PolyEq.Proofs.Solution.Quadratic

/-! # Opposite equations

Opposite equations have one solution. Their discriminants agree, so do their roots, exact forms
included, and only the order of two real roots is exchanged.
-/

namespace PolyEq

open Binary64

namespace Fraction

variable {n d : ℤ}

theorem reduce_neg_neg (n d : ℤ) : (reduce (-n) (-d)).toOption = (reduce n d).toOption := by
  unfold reduce
  dsimp only
  rw [Rat.divInt_neg, Int.neg_neg]
  simp only [neg_eq_zero]
  split_ifs <;> rfl

theorem reduce_neg_right (hn : |n| < 2 ^ 63) (hd : |d| < 2 ^ 63) :
    (reduce n (-d)).toOption = (reduce n d).toOption.map Neg.neg := by
  rcases eq_or_ne d 0 with rfl | h0
  · rfl
  · rw [reduce_eq_ok hn hd h0, reduce_eq_ok hn (by rwa [abs_neg]) (neg_ne_zero.mpr h0),
      Int.cast_neg, div_neg]
    rfl

end Fraction

namespace Solution

inductive Root.Mirrors (R : Float → Float → Prop) : Root → Root → Prop
  | exact (v : ℚ) {x y : Float} : R x y → Mirrors R (.exact v x) (.exact v y)
  | decimal {x y : Float} : R x y → Mirrors R (.decimal x) (.decimal y)

/-- The first root of each pair is the second one of the other. -/
inductive Pair.Mirrors (R : Float → Float → Prop) : Pair → Pair → Prop
  | exact (p q : ℚ) {x y x' y' : Float} : R x y' → R y x' →
      Mirrors R (.exact p q x y) (.exact q p x' y')
  | decimal {x y x' y' : Float} : R x y' → R y x' → Mirrors R (.decimal x y) (.decimal x' y')

inductive Roots.Mirrors (R : Float → Float → Prop) : Roots → Roots → Prop
  | double {r s : Root} : Root.Mirrors R r s → Mirrors R (.double r) (.double s)
  | real {x y : Float} {p q : Pair} : R x y → Pair.Mirrors R p q →
      Mirrors R (.real x p) (.real y q)
  | complex (exact : Option Conjugates) {x y x' y' : Float} : R x x' → R y y' →
      Mirrors R (.complex x y exact) (.complex x' y' exact)

/-- Solutions of one kind with the same roots, where floats are compared by `R`. The equations and
their coefficients are left out. -/
inductive Mirrors (R : Float → Float → Prop) : Solution → Solution → Prop
  | unsolvable (degree : UInt64) : Mirrors R (.unsolvable degree) (.unsolvable degree)
  | allReals (e e' : String) : Mirrors R (.allReals e) (.allReals e')
  | noSolution (e e' : String) : Mirrors R (.noSolution e) (.noSolution e')
  | outOfRange (e e' : String) : Mirrors R (.outOfRange e) (.outOfRange e')
  | linear {s t : Linear} : Root.Mirrors R s.root t.root → Mirrors R (.linear s) (.linear t)
  | quadratic {s t : Quadratic} : R s.discriminant t.discriminant →
      Roots.Mirrors R s.roots t.roots → Mirrors R (.quadratic s) (.quadratic t)

variable {a b c d x y a' b' c' d' x' y' : Float} {i j k : ℤ}

theorem exactRatio?_opposite (hx : Opposite x x') (hy : Opposite y y') :
    exactRatio? x' y' = exactRatio? x y := by
  unfold exactRatio?
  rw [hx.toInteger?_eq, hy.toInteger?_eq]
  cases toInteger? x with
  | none => rfl
  | some n =>
    cases toInteger? y with
    | none => rfl
    | some m => exact Fraction.reduce_neg_neg n m

theorem exactPair?_neg (i j r : ℤ) :
    exactPair? (-i) (-j) r = (exactPair? i j r).map Prod.swap := by
  have hfirst : - -j + r = -(-j - r) := by ring
  have hsecond : - -j - r = -(-j + r) := by ring
  unfold exactPair?
  rw [hfirst, hsecond, mul_neg, Fraction.reduce_neg_neg, Fraction.reduce_neg_neg]
  cases (Fraction.reduce (-j + r) (2 * i)).toOption <;>
    cases (Fraction.reduce (-j - r) (2 * i)).toOption <;> rfl

theorem exactConjugates?_neg (hi : |i| ≤ 2 ^ 53) (j k : ℤ) :
    exactConjugates? (-i) (-j) k = exactConjugates? i j k := by
  unfold exactConjugates?
  rw [mul_neg, Fraction.reduce_neg_neg, Int.natAbs_neg]
  cases hr : toInteger? (sqrt (Rounding.ofInteger k)) with
  | none => rfl
  | some n =>
    have hn := abs_le_of_toInteger? hr
    have hi2 : |2 * i| < 2 ^ 63 := by
      rw [abs_mul, abs_two]
      omega
    simp only [Fraction.reduce_neg_right (hn.trans_lt (by norm_num)) hi2]
    cases (Fraction.reduce n (2 * i)).toOption with
    | none => rfl
    | some q =>
      have habs : (-q).abs = q.abs := by rw [rat_abs_eq, rat_abs_eq, abs_neg]
      simp only [Option.map_some, Option.bind_eq_bind, Option.bind_some, habs]

theorem mirrors_ofRatio (hx : Opposite x x') (hy : Opposite y y') (hf : y.isFinite = true) :
    Root.Mirrors Same (.ofRatio x y) (.ofRatio x' y') := by
  have hq := hx.same_div hy hf
  unfold Root.ofRatio
  rw [exactRatio?_opposite hx hy]
  cases exactRatio? x y with
  | none => exact .decimal hq
  | some v => exact .exact v hq

section Roots

variable (ha : Opposite a a') (hb : Opposite b b') (h2 : (2 * a).isFinite = true)

include ha in
theorem opposite_two_mul : Opposite (2 * a) (2 * a') :=
  lifts_mul.opposite rfl ha.isFinite_eq (by rw [ha.value_eq, mul_neg])

include hb in
theorem opposite_dividend (r : Float) :
    Opposite (-b + r) (-b' - r) ∧ Opposite (-b - r) (-b' + r) := by
  simp only [float_sub_eq_add_neg]
  constructor
  · refine lifts_add.opposite hb.neg.isFinite_eq (isFinite_neg r).symm ?_
    rw [hb.neg.value_eq, value_neg r, neg_add]
  · refine lifts_add.opposite hb.neg.isFinite_eq (isFinite_neg r) ?_
    rw [hb.neg.value_eq, value_neg r, neg_add, neg_neg]

include ha hb h2

theorem mirrors_ofPositive (d : Float) :
    Roots.Mirrors Same (.ofPositive a b d) (.ofPositive a' b' d) := by
  obtain ⟨hu, hl⟩ := opposite_dividend hb (sqrt d)
  have h2' := opposite_two_mul ha
  have hfirst := hu.same_div h2' h2
  have hsecond := hl.same_div h2' h2
  have hexact : (do exactPair? (← toInteger? a') (← toInteger? b') (← toInteger? (sqrt d))) =
      (do exactPair? (← toInteger? a) (← toInteger? b) (← toInteger? (sqrt d))).map Prod.swap := by
    rw [ha.toInteger?_eq, hb.toInteger?_eq]
    cases toInteger? a with
    | none => rfl
    | some i =>
      cases toInteger? b with
      | none => rfl
      | some j =>
        cases toInteger? (sqrt d) with
        | none => rfl
        | some r => exact exactPair?_neg i j r
  unfold Roots.ofPositive
  dsimp only
  rw [hexact]
  cases (do exactPair? (← toInteger? a) (← toInteger? b) (← toInteger? (sqrt d))) with
  | none => exact .real (.refl _) (.decimal hfirst hsecond)
  | some p => exact .real (.refl _) (.exact p.1 p.2 hfirst hsecond)

theorem mirrors_ofNegative (hc : Opposite c c') (d : Float) :
    Roots.Mirrors Same (.ofNegative a b c d) (.ofNegative a' b' c' d) := by
  have h2' := opposite_two_mul ha
  have hreal := hb.neg.same_div h2' h2
  have himaginary := ((Same.refl (sqrt d.abs)).opposite_div h2' h2).same_abs
  unfold Roots.ofNegative exactParts?
  dsimp only
  rw [ha.toInteger?_eq, hb.toInteger?_eq, hc.toInteger?_eq]
  cases hi : toInteger? a with
  | none => exact .complex none hreal himaginary
  | some i =>
    cases toInteger? b with
    | none => exact .complex none hreal himaginary
    | some j =>
      cases toInteger? c with
      | none => exact .complex none hreal himaginary
      | some _ =>
        cases toInteger? d.abs with
        | none => exact .complex none hreal himaginary
        | some k =>
          change Roots.Mirrors Same (.complex _ _ (exactConjugates? i j k))
            (.complex _ _ (exactConjugates? (-i) (-j) k))
          rw [exactConjugates?_neg (abs_le_of_toInteger? hi)]
          exact .complex _ hreal himaginary

theorem mirrors_ofCoefficients (hc : Opposite c c') (hd : Same d d') (hf : d.isFinite = true) :
    Roots.Mirrors Same (.ofCoefficients a b c d) (.ofCoefficients a' b' c' d') := by
  unfold Roots.ofCoefficients
  rw [← hd.isNegligible_eq]
  by_cases hn : isNegligible d = true
  · rw [if_pos hn, if_pos hn]
    exact .double (mirrors_ofRatio hb.neg (opposite_two_mul ha) h2)
  · -- away from zero the discriminants are one float
    have hx := denotes_value hf
    have h0 : value d ≠ 0 := by
      intro h0
      rw [isNegligible_iff hx, h0, abs_zero] at hn
      exact hn tolerance_pos
    obtain rfl : d = d' := hx.eq (hd.denotes hx) rfl h0
    rw [if_neg hn, if_neg hn]
    split_ifs
    · exact mirrors_ofPositive ha hb h2 d
    · exact mirrors_ofNegative ha hb h2 hc d

end Roots

theorem same_discriminant (ha : Opposite a a') (hb : Opposite b b') (hc : Opposite c c') :
    Same (b * b - 4 * a * c) (b' * b' - 4 * a' * c') := by
  have hsquare : Same (b * b) (b' * b') :=
    lifts_mul.same hb.isFinite_eq hb.isFinite_eq (by rw [hb.value_eq, neg_mul_neg])
  have hfour : Opposite (4 * a) (4 * a') :=
    lifts_mul.opposite rfl ha.isFinite_eq (by rw [ha.value_eq, mul_neg])
  have hproduct : Same (4 * a * c) (4 * a' * c') :=
    lifts_mul.same hfour.isFinite_eq hc.isFinite_eq
      (by rw [hfour.value_eq, hc.value_eq, neg_mul_neg])
  exact lifts_sub.same hsquare.isFinite_eq hproduct.isFinite_eq
    (by rw [hsquare.value_eq, hproduct.value_eq])

theorem isFinite_two_mul (h : (4 * a).isFinite = true) : (2 * a).isFinite = true := by
  have hd := denotes_value (isFinite_of_mul h).2
  have hlt := (denotes_four.rounds_mul hd).abs_lt h
  refine ((denotes_two.rounds_mul hd).denotes (le_trans ?_ (two_pow_le_zpow le_rfl))).isFinite
  rw [abs_mul, abs_of_pos (by norm_num), pow_succ 2 1023] at hlt
  rw [abs_mul, abs_two]
  generalize (2 : ℚ) ^ 1023 = p at hlt ⊢
  linarith

section Finite

variable {r s : Root} {p q : Roots} {e e' : Equation}

theorem Root.Mirrors.isFinite_eq (h : Root.Mirrors Same r s) :
    r.value.isFinite = s.value.isFinite := by
  cases h with
  | exact _ h => exact h.isFinite_eq
  | decimal h => exact h.isFinite_eq

theorem Root.Mirrors.beq (h : Root.Mirrors Same r s) (hf : r.value.isFinite = true) :
    Root.Mirrors (· == ·) r s := by
  cases h with
  | exact v h => exact .exact v (h.beq hf)
  | decimal h => exact .decimal (h.beq hf)

theorem Roots.Mirrors.all_isFinite_eq (h : Roots.Mirrors Same p q) :
    p.values.all Float.isFinite = q.values.all Float.isFinite := by
  cases h with
  | double h => simp [Roots.values, h.isFinite_eq]
  | real h hpair =>
    cases hpair with
    | exact _ _ h₁ h₂ | decimal h₁ h₂ =>
      simp [Roots.values, Pair.values, h.isFinite_eq, h₁.isFinite_eq, h₂.isFinite_eq,
        Bool.and_comm]
  | complex _ h h' => simp [Roots.values, h.isFinite_eq, h'.isFinite_eq]

theorem Roots.Mirrors.beq (h : Roots.Mirrors Same p q)
    (hf : p.values.all Float.isFinite = true) : Roots.Mirrors (· == ·) p q := by
  cases h with
  | double h =>
    simp only [Roots.values, List.all_cons, List.all_nil, Bool.and_true] at hf
    exact .double (h.beq hf)
  | real h hpair =>
    cases hpair with
    | exact v w h₁ h₂ =>
      simp only [Roots.values, Pair.values, List.all_cons, Bool.and_eq_true] at hf
      exact .real (h.beq hf.1) (.exact v w (h₁.beq hf.2.1) (h₂.beq hf.2.2.1))
    | decimal h₁ h₂ =>
      simp only [Roots.values, Pair.values, List.all_cons, Bool.and_eq_true] at hf
      exact .real (h.beq hf.1) (.decimal (h₁.beq hf.2.1) (h₂.beq hf.2.2.1))
  | complex exact h h' =>
    simp only [Roots.values, List.all_cons, Bool.and_eq_true] at hf
    exact .complex exact (h.beq hf.1) (h'.beq hf.2.1)

theorem mirrors_solve_of (hf : (ofDegree e).isFinite = (ofDegree e').isFinite)
    (h : (ofDegree e).isFinite = true → Mirrors (· == ·) (ofDegree e) (ofDegree e')) :
    Mirrors (· == ·) e.solve e'.solve := by
  unfold Equation.solve
  dsimp only
  rw [← hf]
  split_ifs with hfin
  · exact h hfin
  · exact .outOfRange _ _

theorem isFinite_linear (s : Linear) : (linear s).isFinite =
    (s.a.isFinite && (s.b.isFinite && s.root.value.isFinite)) := by
  simp [isFinite, values]

theorem isFinite_quadratic (s : Quadratic) : (quadratic s).isFinite = (s.a.isFinite &&
    (s.b.isFinite && (s.c.isFinite && (s.discriminant.isFinite &&
      s.roots.values.all Float.isFinite)))) := by
  simp [isFinite, values]

theorem mirrors_linear {s t : Linear} (ha : Opposite s.a t.a) (hb : Opposite s.b t.b)
    (hs : s.root = .ofRatio (-s.b) s.a) (ht : t.root = .ofRatio (-t.b) t.a) :
    (linear s).isFinite = (linear t).isFinite ∧
      ((linear s).isFinite = true → Mirrors (· == ·) (linear s) (linear t)) := by
  rw [isFinite_linear, isFinite_linear, ← ha.isFinite_eq, ← hb.isFinite_eq]
  cases hf : s.a.isFinite with
  | false => exact ⟨rfl, fun h => by cases h⟩
  | true =>
    have hroot : Root.Mirrors Same s.root t.root := by
      rw [hs, ht]
      exact mirrors_ofRatio hb.neg ha hf
    rw [← hroot.isFinite_eq]
    refine ⟨rfl, fun hall => .linear (hroot.beq ?_)⟩
    simp only [Bool.and_eq_true] at hall
    exact hall.2.2

theorem mirrors_quadratic {s t : Quadratic} (ha : Opposite s.a t.a) (hb : Opposite s.b t.b)
    (hc : Opposite s.c t.c)
    (hs : s.discriminant = s.b * s.b - 4 * s.a * s.c ∧
      s.roots = .ofCoefficients s.a s.b s.c s.discriminant)
    (ht : t.discriminant = t.b * t.b - 4 * t.a * t.c ∧
      t.roots = .ofCoefficients t.a t.b t.c t.discriminant) :
    (quadratic s).isFinite = (quadratic t).isFinite ∧
      ((quadratic s).isFinite = true → Mirrors (· == ·) (quadratic s) (quadratic t)) := by
  have hd : Same s.discriminant t.discriminant := by
    rw [hs.1, ht.1]
    exact same_discriminant ha hb hc
  rw [isFinite_quadratic, isFinite_quadratic, ← ha.isFinite_eq, ← hb.isFinite_eq,
    ← hc.isFinite_eq, ← hd.isFinite_eq]
  cases hf : s.discriminant.isFinite with
  | false => simp
  | true =>
    have h2 : (2 * s.a).isFinite = true := by
      rw [hs.1] at hf
      exact isFinite_two_mul (isFinite_of_mul (isFinite_of_sub hf).2).1
    have hroots : Roots.Mirrors Same s.roots t.roots := by
      rw [hs.2, ht.2]
      exact mirrors_ofCoefficients ha hb h2 hc hd hf
    rw [← hroots.all_isFinite_eq]
    refine ⟨rfl, fun hall => .quadratic (hd.beq hf) (hroots.beq ?_)⟩
    simp only [Bool.and_eq_true] at hall
    exact hall.2.2.2.2

theorem mirrors_solve (h : e.Opposite e') : Mirrors (· == ·) e.solve e'.solve := by
  have hmirror : (ofDegree e).isFinite = (ofDegree e').isFinite ∧
      ((ofDegree e).isFinite = true → Mirrors (· == ·) (ofDegree e) (ofDegree e')) := by
    unfold ofDegree
    rw [h.degree]
    split_ifs
    · unfold ofConstant
      rw [(h.coefficient 0).isNegligible_eq]
      split_ifs
      · exact ⟨rfl, fun _ => .allReals _ _⟩
      · exact ⟨rfl, fun _ => .noSolution _ _⟩
    · exact mirrors_linear (h.coefficient 1) (h.coefficient 0) rfl rfl
    · exact mirrors_quadratic (h.coefficient 2) (h.coefficient 1) (h.coefficient 0) ⟨rfl, rfl⟩
        ⟨rfl, rfl⟩
    · exact ⟨rfl, fun _ => .unsolvable _⟩
  exact mirrors_solve_of hmirror.1 hmirror.2

end Finite

end Solution

namespace Equation

/-- Solving is not changed by negating an equation, or by exchanging the sides on which its terms
are added, except that two real roots change places. -/
theorem solve_mirrors (e : Equation) (edits : List Edit) :
    Solution.Mirrors (· == ·) e.solve e.negate.solve ∧
      Solution.Mirrors (· == ·) (run edits).solve (run (edits.map Edit.exchange)).solve :=
  ⟨Solution.mirrors_solve e.opposite_negate, Solution.mirrors_solve (opposite_run edits)⟩

end Equation

end PolyEq
