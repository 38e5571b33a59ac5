import PolyEq.Proofs.Text.Neighbours

/-! # Plus signs without a term between them

Two plus signs are rejected if only blanks stand between them. Other white space there is a
fragment of its own, and as such it is skipped. So plus signs are kept apart by terms, and only
empty fragments are skipped, exactly if a plus sign has no other white space between it and the
next sign.
-/

namespace PolyEq

open Spacing

variable {b : Bool} {c : Char} {l gap fragment before after left right text : List Char}
  {side : Side} {terms : List Term} {e : Equation}

/-- Where only white space stands between a plus sign and the next sign, it consists of blanks. -/
def BlankGaps (side : List Char) : Prop :=
  ∀ gap c, '+' :: (gap ++ [c]) <:+: side → c = '+' ∨ c = '-' →
    (∀ d ∈ gap, isWhiteSpace d = true) → ∀ d ∈ gap, isBlank d = true

/-- Plus signs do not follow each other, whatever white space is between them. A fragment of white
space is skipped only if it is empty, before the first sign or between a plus and a minus sign. -/
structure SeparatesPlus (side : List Char) : Prop where
  apart : ∀ gap, '+' :: (gap ++ ['+']) <:+: side → ∃ c ∈ gap, isWhiteSpace c = false
  first : (cutAtSigns (tighten side)).1.all isWhiteSpace = true →
    (cutAtSigns (tighten side)).1 = []
  later : ∀ earlier fragment later, (cutAtSigns (tighten side)).2 = earlier ++ fragment :: later →
    fragment.all isWhiteSpace = true → fragment = [] ∧ ∃ next ∈ later.head?, next.head? = some '-'

theorem head?_trim : ∀ c ∈ (trim l).head?, isWhiteSpace c = false := by
  intro c hc
  have h0 : trimEnd (trimStart l) ≠ [] := by
    intro h0
    rw [trim, h0] at hc
    cases hc
  rw [trim, head?_trimEnd h0, trimStart] at hc
  have h := List.head?_dropWhile_not isWhiteSpace l
  rw [Option.mem_def.mp hc] at h
  exact h

theorem cutAtSigns_fst_eq_nil (h : (cutAtSigns (tighten (trim l))).1.all isWhiteSpace = true) :
    (cutAtSigns (tighten (trim l))).1 = [] := by
  obtain ⟨m, hl, -⟩ := exists_cutAtSigns_eq (tighten (trim l))
  by_contra h0
  obtain ⟨c, first, hfirst⟩ := List.exists_cons_of_ne_nil h0
  have hhead : (trim l).head? = some c := by
    rw [← head?_tighten head?_trim, hl, hfirst]
    rfl
  rw [hfirst, List.all_cons, head?_trim c hhead] at h
  cases h

section Gap

variable (h : tightenAfter b (gap ++ [c]) = fragment ++ [c])
include h

theorem filter_gap : gap.filter (!isBlank ·) = fragment.filter (!isBlank ·) := by
  have hfilter := filter_tightenAfter b (gap ++ [c])
  rw [h, List.filter_append, List.filter_append] at hfilter
  exact (List.append_cancel_right hfilter).symm

theorem forall_isWhiteSpace_gap_iff :
    (∀ d ∈ gap, isWhiteSpace d = true) ↔ ∀ d ∈ fragment, isWhiteSpace d = true := by
  have hfilter (l : List Char) : (∀ d ∈ l, isWhiteSpace d = true) ↔
      ∀ d ∈ l.filter (!isBlank ·), isWhiteSpace d = true := by
    refine ⟨fun h d hd => h d (List.mem_of_mem_filter hd), fun h d hd => ?_⟩
    cases hb : isBlank d with
    | true => exact isWhiteSpace_of_isBlank hb
    | false => exact h d (List.mem_filter.mpr ⟨hd, by simp [hb]⟩)
  rw [hfilter gap, filter_gap h, ← hfilter]

theorem forall_isBlank_gap (h0 : fragment = []) : ∀ d ∈ gap, isBlank d = true := by
  have hfilter := filter_gap h
  rw [h0, List.filter_nil, List.filter_eq_nil_iff] at hfilter
  simpa using hfilter

theorem gap_eq_nil (hb : b = true) (hc : isBlank c = false)
    (hgap : ∀ d ∈ gap, isBlank d = true) : fragment = [] := by
  rw [tightenAfter_blanks hgap (.inl hb), tightenAfter_cons hc] at h
  exact List.append_cancel_right h.symm

end Gap

theorem isBlank_sign (hc : c = '+' ∨ c = '-') : isBlank c = false := by
  rcases hc with rfl | rfl <;> rfl

theorem exists_gap {side : List Char} (hc : isBlank c = false)
    (h : tighten side = before ++ '+' :: (fragment ++ c :: after)) :
    ∃ gap, '+' :: (gap ++ [c]) <:+: side ∧ tightenAfter true (gap ++ [c]) = fragment ++ [c] := by
  obtain ⟨before', rest, rfl, -, hrest⟩ := exists_of_tightenAfter (c := '+') rfl h
  obtain ⟨gap, after', rfl, hgap, -⟩ := exists_of_tightenAfter hc hrest
  exact ⟨gap, ⟨before', after', by simp⟩, hgap⟩

theorem hasConsecutivePlus_of_eq (h : l = before ++ '+' :: '+' :: after) :
    hasConsecutivePlus l = true :=
  hasConsecutivePlus_iff.mpr ⟨before, after, by simp [h]⟩

section Side

variable {side : List Char} (hplus : hasConsecutivePlus (tighten side) = false)
include hplus

theorem exists_not_isBlank (h : '+' :: (gap ++ ['+']) <:+: side) : ∃ c ∈ gap, isBlank c = false := by
  by_contra hnone
  have hgap : ∀ d ∈ gap, isBlank d = true := by simpa using hnone
  obtain ⟨before, after, heq⟩ := exists_tighten_eq (c := '+') (d := '+') rfl rfl h
  have hplusPlus : tightenAfter (isOperator '+') (gap ++ ['+']) = ['+'] :=
    tightenAfter_blanks hgap (.inl rfl)
  rw [hplusPlus] at heq
  exact Bool.false_ne_true (hplus.symm.trans (hasConsecutivePlus_of_eq heq))

theorem eq_nil_of_blankGaps {earlier later : List (List Char)} (hgaps : BlankGaps side)
    (hlast : ∃ l c, tighten side = l ++ [c] ∧ isWhiteSpace c = false ∧ c ≠ '+' ∧ c ≠ '-')
    (h : (cutAtSigns (tighten side)).2 = earlier ++ fragment :: later)
    (hfragment : ∀ d ∈ fragment, isWhiteSpace d = true) :
    fragment = [] ∧ ∃ next ∈ later.head?, next.head? = some '-' := by
  have hhead : fragment.head? ≠ some '-' := fun h =>
    absurd (hfragment '-' (List.mem_of_head? h)) (by decide)
  obtain ⟨before, after, heq, hstart, rfl⟩ := exists_of_cutAtSigns h hhead
  cases after with
  | nil =>
    -- the side would end in the white space or the plus sign before it
    obtain ⟨l, c, hl, hwhite, hsign, -⟩ := hlast
    have hmem : c ∈ '+' :: fragment := by
      refine List.mem_of_getLast? ?_
      rw [← List.getLast?_append_of_ne_nil before (List.cons_ne_nil _ _), ← List.append_nil fragment,
        ← heq, hl, List.getLast?_concat]
    rcases List.mem_cons.mp hmem with rfl | hmem
    · exact absurd rfl hsign
    · exact absurd (hwhite.symm.trans (hfragment c hmem)) Bool.false_ne_true
  | cons c after =>
    have hc := hstart c rfl
    obtain ⟨gap, hinfix, hgap⟩ := exists_gap (isBlank_sign hc) heq
    have hwhite := (forall_isWhiteSpace_gap_iff hgap).mpr hfragment
    obtain rfl := gap_eq_nil hgap rfl (isBlank_sign hc) (hgaps gap c hinfix hc hwhite)
    refine ⟨rfl, ?_⟩
    rcases hc with rfl | rfl
    · exact absurd (hplus.symm.trans (hasConsecutivePlus_of_eq heq)) Bool.false_ne_true
    · exact ⟨_, by rw [cutAtSigns_minus]; rfl, rfl⟩

end Side

/-- White space before a minus sign that is more than blanks would be skipped as a fragment. -/
theorem SeparatesPlus.blankGaps {side : List Char} (h : SeparatesPlus side) : BlankGaps side := by
  intro gap c hinfix hc hwhite
  obtain ⟨before, after, heq⟩ := exists_tighten_eq (c := '+') rfl (isBlank_sign hc) hinfix
  obtain ⟨fragment, hfragment⟩ := exists_tightenAfter_concat true (isBlank_sign hc) gap
  refine forall_isBlank_gap hfragment ?_
  rcases hc with rfl | rfl
  · obtain ⟨d, hd, hnot⟩ := h.apart gap hinfix
    exact absurd (hnot.symm.trans (hwhite d hd)) Bool.false_ne_true
  · have hfwhite := (forall_isWhiteSpace_gap_iff hfragment).mp hwhite
    have hcut : cutAtSigns (fragment ++ '-' :: after) = (fragment, (cutAtSigns ('-' :: after)).2) := by
      rw [Summand.cutAtSigns_append (fun d hd => ?_), cutAtSigns_minus, List.append_nil]
      constructor <;> rintro rfl <;> cases hfwhite _ hd
    refine (h.later (cutAtSigns before).2 fragment (cutAtSigns ('-' :: after)).2 ?_ ?_).1
    · have heq' : tighten side = before ++ '+' :: (fragment ++ '-' :: after) := by
        rw [heq]
        simp [show isOperator '+' = true from rfl, hfragment]
      rw [heq', cutAtSigns_sum, hcut]
    · exact List.all_eq_true.mpr hfwhite

theorem separatesPlus_iff (h0 : trim l ≠ []) (h : (readSide side (trim l)).result = .ok terms) :
    SeparatesPlus (trim l) ↔ BlankGaps (trim l) := by
  obtain ⟨hop, hplus, -⟩ := result_readSide_eq_ok_iff.mp h
  refine ⟨SeparatesPlus.blankGaps, fun hgaps => ⟨fun gap hinfix => ?_, cutAtSigns_fst_eq_nil,
    fun earlier fragment later heq hfragment => ?_⟩⟩
  · by_contra hnone
    obtain ⟨d, hd, hblank⟩ := exists_not_isBlank hplus hinfix
    have hb := hgaps gap '+' hinfix (.inl rfl) (by simpa using hnone) d hd
    exact Bool.false_ne_true (hblank.symm.trans hb)
  · exact eq_nil_of_blankGaps hplus hgaps (exists_last_tighten h0 hop) heq
      (List.all_eq_true.mp hfragment)

namespace Equation

/-- In an equation that is read, more than blanks stands between two plus signs. Its sides keep
plus signs apart by more than white space, and skip no fragment but the empty ones of minus signs,
exactly if the white space between a plus sign and the next sign consists of blanks. -/
theorem read_separatesPlus_iff (text : String) (e : Equation) (h : read text = .ok e) :
    ∃ left right, splitSides text.toList = .ok (left, right) ∧ ∀ side ∈ [left, right],
      (∀ gap, '+' :: (gap ++ ['+']) <:+: side → ∃ c ∈ gap, isBlank c = false) ∧
        (SeparatesPlus side ↔ BlankGaps side) := by
  obtain ⟨left, right, leftTerms, rightTerms, hsides, hleft, hright, -⟩ := exists_of_readText h
  obtain ⟨l, r, rfl, rfl, hl, hr⟩ := exists_trim_of_splitSides hsides
  refine ⟨_, _, hsides, ?_⟩
  simp only [List.forall_mem_cons, List.not_mem_nil, IsEmpty.forall_iff, implies_true, and_true]
  exact ⟨⟨fun gap => exists_not_isBlank (result_readSide_eq_ok_iff.mp hleft).2.1,
      separatesPlus_iff hl hleft⟩,
    ⟨fun gap => exists_not_isBlank (result_readSide_eq_ok_iff.mp hright).2.1,
      separatesPlus_iff hr hright⟩⟩

/-- Signs that only blanks separate are read, unless they are two plus signs. -/
theorem read_separatesPlus_signs : ∃ e, read "1 - + -X +\t-2 = +3" = .ok e ∧
    ∀ side ∈ ["1 - + -X +\t-2".toList, "+3".toList],
      (∀ gap, '+' :: (gap ++ ['+']) <:+: side → ∃ c ∈ gap, isBlank c = false) ∧
        (SeparatesPlus side ↔ BlankGaps side) := by
  obtain ⟨e, he⟩ := exists_readText_eq_ok "1 - + -X +\t-2 = +3".toList (by decide +kernel)
  obtain ⟨left, right, hsides, h⟩ := read_separatesPlus_iff _ e he
  have hs : splitSides "1 - + -X +\t-2 = +3".toList =
      .ok ("1 - + -X +\t-2".toList, "+3".toList) := by decide +kernel
  rw [hs] at hsides
  cases hsides
  exact ⟨e, he, h⟩

/-- A no-break space between two plus signs is skipped as a fragment. -/
theorem not_separatesPlus_no_break_space : ∃ e, read "1+\u00a0+X=0" = .ok e ∧
    splitSides "1+\u00a0+X=0".toList = .ok ("1+\u00a0+X".toList, "0".toList) ∧
    isWhiteSpace '\u00a0' = true ∧ ¬ SeparatesPlus "1+\u00a0+X".toList := by
  obtain ⟨e, he⟩ := exists_readText_eq_ok "1+\u00a0+X=0".toList (by decide +kernel)
  refine ⟨e, he, by decide +kernel, by decide, fun h => ?_⟩
  obtain ⟨c, hc, hnot⟩ := h.apart ['\u00a0'] ⟨['1'], ['X'], by decide⟩
  rw [List.mem_singleton.mp hc] at hnot
  cases hnot

end Equation

end PolyEq
