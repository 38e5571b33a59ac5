import PolyEq.Proofs.Equation.Coefficients

/-! # Independent sums

An equation keeps one sum for each exponent. The sum of an exponent is changed by the terms with
this exponent and by reductions, and by nothing else. So an equation is determined by what each
exponent has seen, in whatever way the terms of different exponents are mixed.
-/

namespace PolyEq

namespace Term

variable {s t : Term} {terms terms' : List Term} {n : UInt64} {x : Float}

def lookup (n : UInt64) (terms : List Term) : Option Float :=
  (terms.find? (·.exponent == n)).map coefficient

theorem lookup_cons (t : Term) (terms : List Term) (n : UInt64) :
    lookup n (t :: terms) = if t.exponent = n then some t.coefficient else lookup n terms := by
  unfold lookup
  rw [List.find?_cons]
  split_ifs with h
  · rw [beq_iff_eq.mpr h]
    rfl
  · rw [beq_eq_false_iff_ne.mpr h]

theorem lookup_eq_none_iff : lookup n terms = none ↔ ∀ t ∈ terms, t.exponent ≠ n := by
  simp [lookup]

theorem isSome_lookup_iff : (lookup n terms).isSome = true ↔ ∃ t ∈ terms, t.exponent = n := by
  simp [lookup]

theorem mem_of_lookup (h : lookup n terms = some x) : ⟨x, n⟩ ∈ terms := by
  obtain ⟨t, ht, rfl⟩ := Option.map_eq_some_iff.mp h
  obtain rfl : t.exponent = n := by simpa using List.find?_some ht
  exact List.mem_of_find?_eq_some ht

theorem Ascending.lookup_of_mem (h : Ascending terms) (ht : t ∈ terms) :
    lookup t.exponent terms = some t.coefficient := by
  cases hl : lookup t.exponent terms with
  | none => exact absurd rfl (lookup_eq_none_iff.mp hl t ht)
  | some x => rw [← h.eq_of_exponent_eq (mem_of_lookup hl) ht rfl]

theorem Ascending.mem_iff (h : Ascending terms) :
    t ∈ terms ↔ lookup t.exponent terms = some t.coefficient :=
  ⟨h.lookup_of_mem, mem_of_lookup⟩

theorem Ascending.ext_lookup (h : Ascending terms) (h' : Ascending terms')
    (heq : ∀ n, lookup n terms = lookup n terms') : terms = terms' := by
  apply h.ext h'
  intro t
  rw [h.mem_iff, h'.mem_iff, heq]

/-- A sum with one more summand. The first summand stands for itself. -/
def accumulate (sum? : Option Float) (x : Float) : Option Float :=
  some (sum?.elim x (· + x))

theorem Ascending.lookup_insert (h : Ascending terms) (t : Term) (n : UInt64) :
    lookup n (Term.insert t terms) =
      if t.exponent = n then accumulate (lookup n terms) t.coefficient else lookup n terms := by
  induction terms with
  | nil => exact lookup_cons t [] n
  | cons s terms ih =>
    obtain ⟨hs, hterms⟩ := List.pairwise_cons.mp h
    unfold Term.insert
    by_cases hlt : t.exponent < s.exponent
    · rw [if_pos hlt, lookup_cons]
      apply ite_congr rfl _ fun _ => rfl
      intro hn
      -- the exponent lies before all others
      have hnone : lookup n (s :: terms) = none := by
        rw [lookup_eq_none_iff, List.forall_mem_cons]
        refine ⟨?_, fun u hu => ?_⟩
        · exact hn ▸ (UInt64.ne_of_lt hlt).symm
        · exact hn ▸ (UInt64.ne_of_lt (UInt64.lt_trans hlt (hs u hu))).symm
      rw [hnone]
      rfl
    by_cases hgt : s.exponent < t.exponent
    · rw [if_neg hlt, if_pos hgt, lookup_cons, lookup_cons, ih hterms]
      by_cases hn : s.exponent = n
      · have hne : t.exponent ≠ n := hn ▸ (UInt64.ne_of_lt hgt).symm
        rw [if_pos hn, if_neg hne, if_pos hn]
      · rw [if_neg hn, if_neg hn]
    · have heq : s.exponent = t.exponent :=
        UInt64.le_antisymm (UInt64.not_lt.mp hlt) (UInt64.not_lt.mp hgt)
      rw [if_neg hlt, if_neg hgt, lookup_cons, lookup_cons, heq]
      split_ifs <;> rfl

theorem Ascending.lookup_filter (h : Ascending terms) (n : UInt64) :
    lookup n (terms.filter isSignificant) =
      (lookup n terms).filter fun x => decide (epsilon ≤ x.abs) := by
  ext x
  rw [← (h.filter isSignificant).mem_iff (t := ⟨x, n⟩), List.mem_filter, h.mem_iff,
    Option.filter_eq_some_iff]
  rfl

end Term

/-- What one exponent sees of an edit: a contribution to its sum, or a reduction. -/
inductive Event where
  | contribute (x : Float)
  | reduce

namespace Event

/-- The sum after an event. A reduction drops it unless it reaches the tolerance. -/
def apply (sum? : Option Float) : Event → Option Float
  | contribute x => Term.accumulate sum? x
  | reduce => sum?.filter fun x => decide (epsilon ≤ x.abs)

def contribution? : Event → Option Float
  | contribute x => some x
  | reduce => none

end Event

/-- A term is seen by its own exponent, with the sign of its side. A reduction is seen by all. -/
def Edit.event? (n : UInt64) : Edit → Option Event
  | add t side => if t.exponent = n then some (.contribute (side.orient t.coefficient)) else none
  | reduce => some .reduce

def history (n : UInt64) (edits : List Edit) : List Event :=
  edits.filterMap (Edit.event? n)

def contributions (n : UInt64) (edits : List Edit) : List Float :=
  (history n edits).filterMap Event.contribution?

def total : List Float → Option Float
  | [] => none
  | x :: later => some (later.foldl (· + ·) x)

variable {n : UInt64} {x : Float} {t : Term} {side : Side} {l : List Float}
  {edit : Edit} {edits edits' earlier recent : List Edit} {e e' : Equation}

theorem history_concat (n : UInt64) (edits : List Edit) (edit : Edit) :
    history n (edits ++ [edit]) = history n edits ++ (edit.event? n).toList := by
  unfold history
  rw [List.filterMap_append]
  cases h : edit.event? n <;> simp [h]

theorem contributions_concat_add (edits : List Edit) (t : Term) (side : Side) :
    contributions n (edits ++ [.add t side]) = contributions n edits ++
      if t.exponent = n then [side.orient t.coefficient] else [] := by
  unfold contributions
  rw [history_concat, List.filterMap_append]
  split_ifs with h <;> simp [Edit.event?, Event.contribution?, h]

@[simp] theorem contributions_concat_reduce (edits : List Edit) :
    contributions n (edits ++ [.reduce]) = contributions n edits := by
  simp [contributions, history_concat, Edit.event?, Event.contribution?]

theorem total_concat (l : List Float) (x : Float) :
    total (l ++ [x]) = Term.accumulate (total l) x := by
  cases l with
  | nil => rfl
  | cons y l => simp [total, Term.accumulate]

theorem mem_contributions_iff :
    x ∈ contributions n edits ↔
      ∃ t side, .add t side ∈ edits ∧ t.exponent = n ∧ side.orient t.coefficient = x := by
  unfold contributions history
  rw [List.filterMap_filterMap, List.mem_filterMap]
  constructor
  · rintro ⟨edit, hedit, h⟩
    cases edit with
    | add t side =>
      by_cases hn : t.exponent = n
      · exact ⟨t, side, hedit, hn, by simpa [Edit.event?, hn, Event.contribution?] using h⟩
      · simp [Edit.event?, hn] at h
    | reduce => simp [Edit.event?, Event.contribution?] at h
  · rintro ⟨t, side, hedit, hn, rfl⟩
    exact ⟨_, hedit, by simp [Edit.event?, hn, Event.contribution?]⟩

theorem isSome_total_iff : (total l).isSome = true ↔ ∃ x, x ∈ l := by
  cases l <;> simp [total]

namespace Equation

def coefficient? (e : Equation) (n : UInt64) : Option Float :=
  Term.lookup n e.terms

theorem isSome_coefficient?_iff :
    (e.coefficient? n).isSome = true ↔ ∃ t ∈ e.terms, t.exponent = n :=
  Term.isSome_lookup_iff

theorem coefficient?_add (e : Equation) (t : Term) (side : Side) (n : UInt64) :
    (e.add t side).coefficient? n = if t.exponent = n then
      Term.accumulate (e.coefficient? n) (side.orient t.coefficient) else e.coefficient? n :=
  e.ascending.lookup_insert ⟨side.orient t.coefficient, t.exponent⟩ n

theorem coefficient?_reduce (e : Equation) (n : UInt64) :
    e.reduce.coefficient? n = (e.coefficient? n).filter fun x => decide (epsilon ≤ x.abs) :=
  e.ascending.lookup_filter n

/-- An edit does to each sum what the exponent sees of it. -/
theorem coefficient?_apply (e : Equation) (edit : Edit) (n : UInt64) :
    (edit.apply e).coefficient? n =
      (edit.event? n).toList.foldl Event.apply (e.coefficient? n) := by
  cases edit with
  | add t side =>
    rw [Edit.apply, coefficient?_add, Edit.event?]
    split_ifs <;> rfl
  | reduce => exact coefficient?_reduce e n

theorem coefficient?_run (edits : List Edit) (n : UInt64) :
    (run edits).coefficient? n = (history n edits).foldl Event.apply none := by
  induction edits using List.reverseRecOn with
  | nil => rfl
  | append_singleton edits edit ih =>
    rw [run_concat, coefficient?_apply, ih, history_concat, List.foldl_append]

def Drops (n : UInt64) (e : Equation) : Prop :=
  (∃ t ∈ e.terms, t.exponent = n) ∧ ∀ t ∈ e.reduce.terms, t.exponent ≠ n

instance (n : UInt64) (e : Equation) : Decidable (Drops n e) :=
  inferInstanceAs (Decidable (_ ∧ _))

/-- The recent edits are those after the last reduction that dropped the exponent, or all of them
if none did. -/
structure IsLastDrop (n : UInt64) (earlier recent : List Edit) : Prop where
  dropped : earlier = [] ∨ ∃ before, earlier = before ++ [.reduce] ∧ Drops n (run before)
  kept : ∀ before after, recent = before ++ .reduce :: after → ¬ Drops n (run (earlier ++ before))

theorem IsLastDrop.of_concat (h : IsLastDrop n earlier (recent ++ [edit])) :
    IsLastDrop n earlier recent := by
  refine ⟨h.dropped, ?_⟩
  rintro before after rfl
  exact h.kept before (after ++ [edit]) (by simp)

theorem coefficient?_reduce_of_not_drops (h : ¬ Drops n e) :
    e.reduce.coefficient? n = e.coefficient? n := by
  cases hx : e.coefficient? n with
  | none => rw [coefficient?_reduce, hx, Option.filter_none]
  | some x =>
    have hmem : (⟨x, n⟩ : Term) ∈ e.terms := Term.mem_of_lookup hx
    have hnone : e.reduce.coefficient? n ≠ none :=
      fun hnone => h ⟨⟨_, hmem, rfl⟩, Term.lookup_eq_none_iff.mp hnone⟩
    rw [coefficient?_reduce, hx] at hnone ⊢
    exact (Option.filter_eq_some_iff).mpr ⟨rfl, by simpa using hnone⟩

/-- The sum of an exponent is that of its contributions since it was last dropped. -/
theorem IsLastDrop.coefficient?_eq (h : IsLastDrop n earlier recent) :
    (run (earlier ++ recent)).coefficient? n = total (contributions n recent) := by
  induction recent using List.reverseRecOn with
  | nil =>
    rw [List.append_nil]
    obtain rfl | ⟨before, rfl, hdrops⟩ := h.dropped
    · rfl
    · rw [run_concat]
      exact Term.lookup_eq_none_iff.mpr hdrops.2
  | append_singleton recent edit ih =>
    have ih := ih h.of_concat
    rw [← List.append_assoc, run_concat]
    cases edit with
    | add t side =>
      rw [Edit.apply, coefficient?_add, ih, contributions_concat_add]
      split_ifs
      · rw [total_concat]
      · rw [List.append_nil]
    | reduce =>
      have hkept := h.kept recent [] rfl
      rw [Edit.apply, coefficient?_reduce_of_not_drops hkept, ih, contributions_concat_reduce]

theorem exists_isLastDrop (n : UInt64) (edits : List Edit) :
    ∃ earlier recent, edits = earlier ++ recent ∧ IsLastDrop n earlier recent := by
  induction edits using List.reverseRecOn with
  | nil => exact ⟨[], [], rfl, .inl rfl, by simp⟩
  | append_singleton edits edit ih =>
    obtain ⟨earlier, recent, rfl, h⟩ := ih
    by_cases hdrop : edit = .reduce ∧ Drops n (run (earlier ++ recent))
    · obtain ⟨rfl, hdrop⟩ := hdrop
      exact ⟨_, [], (List.append_nil _).symm, .inr ⟨_, rfl, hdrop⟩, by simp⟩
    · refine ⟨earlier, recent ++ [edit], List.append_assoc _ _ _, h.dropped, ?_⟩
      intro before after hsplit
      rcases after.eq_nil_or_concat' with rfl | ⟨after, last, rfl⟩
      · obtain ⟨rfl, hedit⟩ := List.append_inj' hsplit rfl
        exact fun hd => hdrop ⟨by simpa using hedit, hd⟩
      · rw [← List.cons_append, ← List.append_assoc] at hsplit
        exact h.kept before after (List.append_inj' hsplit rfl).1

theorem mem_terms_iff : t ∈ e.terms ↔ e.coefficient? t.exponent = some t.coefficient :=
  e.ascending.mem_iff

theorem IsLastDrop.exists_mem_iff (h : IsLastDrop n earlier recent) :
    (∃ t ∈ (run (earlier ++ recent)).terms, t.exponent = n) ↔
      ∃ t side, .add t side ∈ recent ∧ t.exponent = n := by
  rw [← isSome_coefficient?_iff, h.coefficient?_eq, isSome_total_iff]
  constructor
  · rintro ⟨x, hx⟩
    obtain ⟨t, side, hmem, hn, -⟩ := mem_contributions_iff.mp hx
    exact ⟨t, side, hmem, hn⟩
  · rintro ⟨t, side, hmem, hn⟩
    exact ⟨_, mem_contributions_iff.mpr ⟨t, side, hmem, hn, rfl⟩⟩

theorem mem_terms_add_iff (hn : t.exponent ≠ n) :
    ⟨x, n⟩ ∈ (e.add t side).terms ↔ ⟨x, n⟩ ∈ e.terms := by
  rw [mem_terms_iff, mem_terms_iff, coefficient?_add, if_neg hn]

theorem eq_of_terms_eq (hterms : e.terms = e'.terms) (hdegree : e.degree = e'.degree) :
    e = e' := by
  cases e
  cases e'
  cases hterms
  cases hdegree
  rfl

theorem degree_run_cases (edits : List Edit) :
    edits.getLast? = some .reduce ∧
        (run edits).degree = Term.lastExponent (run edits).terms ∨
      edits.getLast? ≠ some .reduce ∧ (run edits).degree =
        Term.lastExponent ((run edits).terms.filter Term.exceedsTolerance) := by
  obtain rfl | ⟨edits, edit, rfl⟩ := edits.eq_nil_or_concat'
  · exact .inr ⟨nofun, rfl⟩
  · rw [run_concat, List.getLast?_concat]
    cases edit with
    | add t side => exact .inr ⟨nofun, rfl⟩
    | reduce => exact .inl ⟨rfl, rfl⟩

theorem getLast?_eq_reduce_iff :
    edits.getLast? = some .reduce ↔ ∀ n, (history n edits).getLast? = some .reduce := by
  obtain rfl | ⟨edits, edit, rfl⟩ := edits.eq_nil_or_concat'
  · simp [history]
  · cases edit with
    | add t side =>
      refine iff_of_false (by simp) fun h => ?_
      have hlast := h t.exponent
      simp [history_concat, Edit.event?] at hlast
    | reduce => simp [history_concat, Edit.event?]

theorem run_congr (h : ∀ n, history n edits = history n edits') : run edits = run edits' := by
  have hsum (n : UInt64) : (run edits).coefficient? n = (run edits').coefficient? n := by
    rw [coefficient?_run, coefficient?_run, h]
  have hterms : (run edits).terms = (run edits').terms :=
    (run edits).ascending.ext_lookup (run edits').ascending hsum
  have hlast : edits.getLast? = some .reduce ↔ edits'.getLast? = some .reduce := by
    rw [getLast?_eq_reduce_iff, getLast?_eq_reduce_iff]
    exact forall_congr' fun n => by rw [h]
  refine eq_of_terms_eq hterms ?_
  rcases degree_run_cases edits with ⟨hr, hd⟩ | ⟨hr, hd⟩ <;>
    rcases degree_run_cases edits' with ⟨hr', hd'⟩ | ⟨hr', hd'⟩
  · rw [hd, hd', hterms]
  · exact absurd (hlast.mp hr) hr'
  · exact absurd (hlast.mpr hr') hr
  · rw [hd, hd', hterms]

/-- The terms of an equation are independent sums, one for each exponent. An exponent is there
exactly if it was contributed to since it was last dropped, with the sum of these contributions in
their order. Other exponents do not change it, and edits that every exponent sees alike lead to
the same equation. -/
theorem run_keeps_independent_sums (edits : List Edit) :
    ((run edits).terms.map Term.exponent).Pairwise (· < ·) ∧
    (∀ n, ∃ earlier recent, edits = earlier ++ recent ∧ IsLastDrop n earlier recent) ∧
    (∀ n earlier recent, edits = earlier ++ recent → IsLastDrop n earlier recent →
      ((∃ t ∈ (run edits).terms, t.exponent = n) ↔
        ∃ t side, .add t side ∈ recent ∧ t.exponent = n) ∧
      ∀ t ∈ (run edits).terms, t.exponent = n →
        total (contributions n recent) = some t.coefficient) ∧
    (∀ n t side, t.exponent ≠ n →
      ∀ x, ⟨x, n⟩ ∈ ((run edits).add t side).terms ↔ ⟨x, n⟩ ∈ (run edits).terms) ∧
    ∀ edits', (∀ n, history n edits = history n edits') → run edits = run edits' := by
  refine ⟨List.pairwise_map.mpr (run edits).ascending, fun n => exists_isLastDrop n edits, ?_,
    fun n t side hn x => mem_terms_add_iff hn, fun edits' => run_congr⟩
  rintro n earlier recent rfl h
  refine ⟨h.exists_mem_iff, ?_⟩
  rintro t ht rfl
  rw [← h.coefficient?_eq]
  exact mem_terms_iff.mp ht

/-- The linear terms of the first two edits cancel and are dropped. The sum starts anew with the
edits after the reduction, also beside a constant. -/
theorem run_starts_anew : ∃ earlier recent : List Edit,
    earlier = [.add ⟨1, 1⟩ .left, .add ⟨1, 1⟩ .right, .reduce] ∧
      recent = [.add ⟨2, 1⟩ .left, .add ⟨5, 0⟩ .left, .add ⟨1, 1⟩ .right] ∧
      IsLastDrop 1 earlier recent ∧ total (contributions 1 recent) = some (2 + -1) ∧
      ∀ t ∈ (run (earlier ++ recent)).terms, t.exponent = 1 → t.coefficient = 2 + -1 := by
  have h : IsLastDrop 1 [.add ⟨1, 1⟩ .left, .add ⟨1, 1⟩ .right, .reduce]
      [.add ⟨2, 1⟩ .left, .add ⟨5, 0⟩ .left, .add ⟨1, 1⟩ .right] := by
    refine ⟨.inr ⟨[.add ⟨1, 1⟩ .left, .add ⟨1, 1⟩ .right], rfl, by decide +kernel⟩, ?_⟩
    intro before after hsplit
    have hmem : Edit.reduce ∈ before ++ .reduce :: after := by simp
    rw [← hsplit] at hmem
    simp at hmem
  have htotal : total (contributions 1
      [.add ⟨2, 1⟩ .left, .add ⟨5, 0⟩ .left, .add ⟨1, 1⟩ .right]) = some (2 + -1) := rfl
  refine ⟨_, _, rfl, rfl, h, htotal, fun t ht hn => ?_⟩
  have hsum := ((run_keeps_independent_sums _).2.2.1 _ _ _ rfl h).2 t ht hn
  exact Option.some.inj (hsum.symm.trans htotal)

end Equation

end PolyEq
