import PolyEq.Proofs.Binary64.Special
import PolyEq.Proofs.Term.Reading
import PolyEq.Proofs.Text.Signs

/-! # The sign of a term

A term enters an equation with the sign that stands directly before it. A run of signs between
two terms therefore negates the later one if it ends in a minus sign. A minus sign earlier in the
run is lost if a plus sign follows.
-/

namespace PolyEq

open Binary64 SignedPart

variable {text : List Char} {t : Term} {p : SignedPart} {parts : List SignedPart}
  {reads : List ReadTerm} {terms : List Term} {side : Side} {e : Equation}

namespace Binary64

theorem ne_neg_self {x : Float} (hx : x.isFinite = true) : x ≠ -x := by
  intro h
  have hu := congrArg (fun y : Float => y.toModel.unpack) h
  simp only [unpack_neg] at hu
  obtain ⟨s, hs⟩ | ⟨s, m, e, hm, hs, -⟩ := isFinite_iff.mp hx <;> rw [hs] at hu <;>
    cases s <;> cases hu

end Binary64

def SignedPart.Enters (negated : SignedPart → Bool) (p : SignedPart) (t : Term) : Prop :=
  ∃ u, Term.readUnsigned p.body = .ok u ∧ t = if negated p then u.negate else u

/-- The terms are those of the parts that are not blank, in their order. -/
def EnterAs (negated : SignedPart → Bool) (parts : List SignedPart) (terms : List Term) : Prop :=
  List.Forall₂ (Enters negated) (parts.filter fun p => !p.isBlank) terms

theorem readFragments_cons_ok {fragment : List Char} {later : List (List Char)}
    (h : readFragments (fragment :: later) = (reads, none)) :
    ∃ t? reads', Term.read fragment = .ok t? ∧ readFragments later = (reads', none) ∧
      reads.map ReadTerm.term = t?.toList ++ reads'.map ReadTerm.term := by
  cases hf : Term.read fragment with
  | error fault => rw [readFragments_cons_error hf] at h; cases h
  | ok t? =>
    cases t? with
    | none =>
      rw [readFragments_cons_none hf] at h
      exact ⟨none, reads, rfl, h, rfl⟩
    | some t =>
      rw [readFragments_cons_some hf] at h
      obtain ⟨rfl, hnone⟩ := Prod.mk.inj h
      exact ⟨some t, _, rfl, Prod.ext rfl hnone, rfl⟩

section

variable {later : List (List Char)} (ih : ∀ reads', readFragments later = (reads', none) →
  EnterAs endsInMinus parts (reads'.map ReadTerm.term))
include ih

theorem enterAs_cons_fragment {fragment : List Char}
    (hread : Term.read fragment =
      (Term.readUnsigned p.body).map fun u => some (if p.endsInMinus then u.negate else u))
    (h : readFragments (fragment :: later) = (reads, none)) :
    EnterAs endsInMinus (p :: parts) (reads.map ReadTerm.term) := by
  obtain ⟨t?, reads', ht, h', hterms⟩ := readFragments_cons_ok h
  rw [hread, map_eq_ok] at ht
  obtain ⟨u, hu, rfl⟩ := ht
  have hblank : p.isBlank = false := Term.not_blank_of_readUnsigned hu
  rw [hterms, EnterAs, List.filter_cons_of_pos (by simp [hblank])]
  exact .cons ⟨u, hu, rfl⟩ (ih reads' h')

theorem enterAs_cons (h : (if p.endsInMinus then readFragments (('-' :: p.body) :: later)
      else readFragments (visible [p.body] ++ later)) = (reads, none)) :
    EnterAs endsInMinus (p :: parts) (reads.map ReadTerm.term) := by
  split_ifs at h with hminus
  · refine enterAs_cons_fragment ih ?_ h
    simp only [Term.read_minus_body p.body_ne_nil, if_pos hminus]
  · cases hblank : p.isBlank with
    | true =>
      have hv : visible [p.body] = [] := List.filter_cons_of_neg (by simpa [isBlank] using hblank)
      rw [hv] at h
      rw [EnterAs, List.filter_cons_of_neg (by simp [hblank])]
      exact ih reads h
    | false =>
      have hv : visible [p.body] = [p.body] :=
        List.filter_cons_of_pos (by simpa [isBlank] using hblank)
      rw [hv] at h
      refine enterAs_cons_fragment ih ?_ h
      simp only [Term.read_body p.body_ne_nil p.notSign, if_neg hminus]

end

theorem enterAs_of_readFragments (hlater : ∀ p ∈ parts.tail, p.signs ≠ [])
    (h : readFragments (fragments (parts.flatMap SignedPart.text)) = (reads, none)) :
    EnterAs endsInMinus parts (reads.map ReadTerm.term) := by
  induction parts generalizing reads with
  | nil =>
    cases h
    exact .nil
  | cons p parts ih =>
    have hlater : ∀ q ∈ parts, q.signs ≠ [] := hlater
    rw [List.flatMap_cons, p.readFragments_text (startsWithSign_flatMap hlater)] at h
    exact enterAs_cons (fun reads' => ih fun q hq => hlater q (List.mem_of_mem_tail hq)) h

section

variable {negated negated' : SignedPart → Bool}

theorem SignedPart.Enters.iff (h : p.Enters negated t) :
    p.Enters negated' t ↔ negated' p = negated p := by
  obtain ⟨u, hu, rfl⟩ := h
  have hne : u.negate ≠ u := fun h =>
    ne_neg_self (Term.isFinite_of_readUnsigned hu) (congrArg Term.coefficient h).symm
  constructor
  · rintro ⟨v, hv, h⟩
    obtain rfl : u = v := by simpa [hu] using hv
    cases hn : negated p <;> cases hn' : negated' p <;> simp only [hn, hn'] at h
    · rfl
    · exact absurd h.symm hne
    · exact absurd h hne
    · rfl
  · intro h
    exact ⟨u, hu, by rw [h]⟩

theorem EnterAs.iff (h : EnterAs negated parts terms) :
    EnterAs negated' parts terms ↔
      ∀ p ∈ parts, p.isBlank = false → negated' p = negated p := by
  have hiff : EnterAs negated' parts terms ↔
      ∀ p ∈ parts.filter fun p => !p.isBlank, negated' p = negated p := by
    unfold EnterAs at *
    generalize parts.filter _ = parts at h
    induction h with
    | nil => simp
    | cons hp _ ih => rw [List.forall₂_cons, hp.iff, ih, List.forall_mem_cons]
  simpa using hiff

end

/-- The terms of a side enter by the last signs of their runs. They enter negated by any minus
sign in their runs exactly if none is followed by a plus sign at the end of its run. -/
structure ReadsBySigns (side : List Char) (terms : List Term) : Prop where
  exists_isCut : ∃ parts, IsCut parts (Spacing.tighten side)
  enterAs : ∀ parts, IsCut parts (Spacing.tighten side) → EnterAs endsInMinus parts terms
  enterAs_iff : ∀ parts, IsCut parts (Spacing.tighten side) →
    (EnterAs hasMinus parts terms ↔
      ∀ p ∈ parts, p.isBlank = false → p.hasMinus = true → p.endsInMinus = true)

theorem SideReading.result_eq_ok_iff {reading : SideReading} :
    reading.result = .ok terms ↔
      reading.fault = none ∧ reading.terms.map ReadTerm.term = terms := by
  unfold SideReading.result
  cases reading.fault <;> simp

theorem SideReading.result_eq_error_iff {reading : SideReading} {fault : ReadError} :
    reading.result = .error fault ↔ reading.fault = some fault := by
  unfold SideReading.result
  cases reading.fault <;> simp

theorem result_readSide_eq_ok_iff : (readSide side text).result = .ok terms ↔
    (∀ c ∈ (Spacing.tighten text).getLast?, Spacing.isOperator c = false) ∧
      hasConsecutivePlus (Spacing.tighten text) = false ∧
      fragments (Spacing.tighten text) ≠ [] ∧
      ∃ reads, readFragments (fragments (Spacing.tighten text)) = (reads, none) ∧
        reads.map ReadTerm.term = terms := by
  unfold readSide
  dsimp only
  split_ifs with hop hplus hnone <;> rw [SideReading.result_eq_ok_iff]
  · refine iff_of_false (by simp) fun ⟨hlast, _⟩ => ?_
    simp only [Option.any_eq_true] at hop
    obtain ⟨c, hc, ho⟩ := hop
    exact Bool.false_ne_true ((hlast c hc).symm.trans ho)
  · exact iff_of_false (by simp) fun h => Bool.false_ne_true (h.2.1.symm.trans hplus)
  · exact iff_of_false (by simp) fun h => h.2.2.1 hnone
  · constructor
    · rintro ⟨hfault, hterms⟩
      refine ⟨fun c hc => ?_, by simpa using hplus, hnone, _, Prod.ext rfl hfault, hterms⟩
      simpa [Option.mem_def.mp hc] using hop
    · rintro ⟨-, -, -, reads, hreads, hterms⟩
      rw [hreads]
      exact ⟨rfl, hterms⟩

theorem readsBySigns (h : (readSide side text).result = .ok terms) : ReadsBySigns text terms := by
  obtain ⟨hlast, -, -, reads, hreads, rfl⟩ := result_readSide_eq_ok_iff.mp h
  have henter (parts) (hcut : IsCut parts (Spacing.tighten text)) :
      EnterAs endsInMinus parts (reads.map ReadTerm.term) := by
    rw [hcut.text_eq] at hreads
    exact enterAs_of_readFragments hcut.later hreads
  refine ⟨exists_isCut fun c hc => ?_, henter, fun parts hcut => ?_⟩
  · have hop := hlast c hc
    constructor <;> rintro rfl <;> cases hop
  · refine (henter parts hcut).iff.trans ?_
    refine forall₃_congr fun p _ _ => ⟨fun h hm => h ▸ hm, fun h => ?_⟩
    exact Bool.eq_iff_iff.mpr ⟨h, hasMinus_of_endsInMinus⟩

namespace Equation

theorem exists_of_readText (h : readText text = .ok e) :
    ∃ left right leftTerms rightTerms, splitSides text = .ok (left, right) ∧
      (readSide .left left).result = .ok leftTerms ∧
      (readSide .right right).result = .ok rightTerms ∧ e = ofSides leftTerms rightTerms := by
  simp only [readText, bind_eq_ok, pure_eq_ok] at h
  obtain ⟨⟨left, right⟩, hsides, leftTerms, hl, rightTerms, hr, rfl⟩ := h
  exact ⟨left, right, leftTerms, rightTerms, hsides, hl, hr, rfl⟩

/-- The sign of each term that enters an equation, before its side negates it. -/
theorem readsBySigns_of_readText (h : readText text = .ok e) :
    ∃ left right leftTerms rightTerms, splitSides text = .ok (left, right) ∧
      e = ofSides leftTerms rightTerms ∧
      ReadsBySigns left leftTerms ∧ ReadsBySigns right rightTerms := by
  obtain ⟨left, right, leftTerms, rightTerms, hsides, hl, hr, he⟩ := exists_of_readText h
  exact ⟨left, right, leftTerms, rightTerms, hsides, he, readsBySigns hl, readsBySigns hr⟩

theorem exists_readText_eq_ok (text : List Char) (h : (readText text).toBool = true) :
    ∃ e, readText text = .ok e := by
  cases he : readText text with
  | error fault => simp [he, Except.toBool] at h
  | ok e => exact ⟨e, rfl⟩

/-- The constant of `X--3+-2*X^2=+1` enters negated, once. -/
theorem readsBySigns_double_minus : ∃ e leftTerms rightTerms,
    readText "X--3+-2*X^2=+1".toList = .ok e ∧ e = ofSides leftTerms rightTerms ∧
      ReadsBySigns "X--3+-2*X^2".toList leftTerms ∧ ReadsBySigns "+1".toList rightTerms := by
  obtain ⟨e, he⟩ := exists_readText_eq_ok "X--3+-2*X^2=+1".toList (by decide +kernel)
  obtain ⟨left, right, leftTerms, rightTerms, hsides, heq, hl, hr⟩ := readsBySigns_of_readText he
  have hs : splitSides "X--3+-2*X^2=+1".toList = .ok ("X--3+-2*X^2".toList, "+1".toList) := by
    decide +kernel
  rw [hs] at hsides
  cases hsides
  exact ⟨e, leftTerms, rightTerms, he, heq, hl, hr⟩

/-- A plus sign after the minus sign in `X-+3=0` undoes the negation. -/
theorem not_negated_by_minus_before_plus : ∃ e leftTerms rightTerms parts,
    readText "X-+3=0".toList = .ok e ∧ e = ofSides leftTerms rightTerms ∧
      splitSides "X-+3=0".toList = .ok ("X-+3".toList, "0".toList) ∧
      IsCut parts (Spacing.tighten "X-+3".toList) ∧
      parts.map (fun p => (p.signs, p.body)) = [([], ['X']), (['-', '+'], ['3'])] ∧
      ¬ EnterAs hasMinus parts leftTerms := by
  obtain ⟨e, he⟩ := exists_readText_eq_ok "X-+3=0".toList (by decide +kernel)
  obtain ⟨left, right, leftTerms, rightTerms, hsides, hl, -, heq⟩ := exists_of_readText he
  have hs : splitSides "X-+3=0".toList = .ok ("X-+3".toList, "0".toList) := by decide +kernel
  rw [hs] at hsides
  cases hsides
  let constant : SignedPart := ⟨['-', '+'], ['3'], by simp, by simp, by simp⟩
  have hcut : IsCut [⟨[], ['X'], by simp, by simp, by simp⟩, constant]
      (Spacing.tighten "X-+3".toList) :=
    ⟨by decide +kernel, by simp [constant]⟩
  refine ⟨e, leftTerms, rightTerms, _, he, heq, hs, hcut, rfl, fun h => ?_⟩
  have hlast := ((readsBySigns hl).enterAs_iff _ hcut).mp h constant (by simp) (by decide)
  exact absurd (hlast (by decide)) (by decide)

end Equation

end PolyEq
