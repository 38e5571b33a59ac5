import PolyEq.Proofs.Text.Blanks
import PolyEq.Proofs.Text.Infix
import PolyEq.Proofs.Text.Signs

/-! # Texts joined by a plus sign

A text without white space at its ends keeps its last character when it is tightened. So a plus
sign between two such texts keeps them apart: tightening, cutting and reading the sum does to each
part what it does to the part alone.
-/

namespace PolyEq

variable {b : Bool} {c : Char} {l m : List Char}

structure IsTrimmed (text : List Char) : Prop where
  head : ∀ c ∈ text.head?, isWhiteSpace c = false
  last : ∀ c ∈ text.getLast?, isWhiteSpace c = false

instance (text : List Char) : Decidable (IsTrimmed text) :=
  decidable_of_iff ((text.head?.all fun c => !isWhiteSpace c) = true ∧
      (text.getLast?.all fun c => !isWhiteSpace c) = true)
    ⟨fun h => ⟨by simpa [Option.all_eq_true] using h.1, by simpa [Option.all_eq_true] using h.2⟩,
      fun h => ⟨by simpa [Option.all_eq_true] using h.head,
        by simpa [Option.all_eq_true] using h.last⟩⟩

namespace IsTrimmed

theorem trim_eq (h : IsTrimmed l) : trim l = l := by
  unfold trim
  rw [trimStart_eq_self h.head, trimEnd_eq_self h.last]

theorem trim_append_space (h : IsTrimmed l) : trim (l ++ [' ']) = l := by
  rcases eq_or_ne l [] with rfl | h0
  · decide
  · have hs : trimStart (l ++ [' ']) = l ++ [' '] := by
      refine trimStart_eq_self fun c hc => h.head c ?_
      rwa [List.head?_append_of_ne_nil _ h0] at hc
    rw [trim, hs, trimEnd_append_space h.last]

theorem trim_cons_space (h : IsTrimmed l) : trim (' ' :: l) = l :=
  h.trim_eq

end IsTrimmed

theorem getLast?_trim : ∀ c ∈ (trim l).getLast?, isWhiteSpace c = false := by
  intro c hc
  rw [trim, trimEnd, List.getLast?_reverse] at hc
  have h := List.head?_dropWhile_not isWhiteSpace (trimStart l).reverse
  rw [Option.mem_def.mp hc] at h
  exact h

theorem mem_trimStart (hc : c ∈ l) (hw : isWhiteSpace c = false) : c ∈ trimStart l := by
  have hl : l.takeWhile isWhiteSpace ++ trimStart l = l := List.takeWhile_append_dropWhile
  rw [← hl, List.mem_append] at hc
  refine hc.resolve_left fun h => ?_
  exact Bool.false_ne_true (hw.symm.trans (List.mem_takeWhile_imp h))

theorem mem_trim (hc : c ∈ l) (hw : isWhiteSpace c = false) : c ∈ trim l := by
  rw [trim, trimEnd_eq, List.mem_reverse]
  exact mem_trimStart (List.mem_reverse.mpr (mem_trimStart hc hw)) hw

theorem trim_ne_nil (h : ∃ c ∈ l, isWhiteSpace c = false) : trim l ≠ [] := by
  obtain ⟨c, hc, hw⟩ := h
  exact List.ne_nil_of_mem (mem_trim hc hw)

namespace Spacing

theorem operatorAhead_append (hc : isBlank c = false) (l m : List Char) :
    operatorAhead (l ++ c :: m) = operatorAhead (l ++ [c]) := by
  induction l with
  | nil => simp [operatorAhead, hc]
  | cons d l ih =>
    simp only [operatorAhead, List.cons_append, List.dropWhile_cons] at ih ⊢
    split
    · exact ih
    · rfl

/-- What follows a character that is not blank has no influence on what stands before it. -/
theorem tightenAfter_append_cons (hc : isBlank c = false) (l m : List Char) :
    tightenAfter b (l ++ c :: m) = tightenAfter b (l ++ [c]) ++ tightenAfter (isOperator c) m := by
  induction l generalizing b with
  | nil => simp [tightenAfter, hc]
  | cons d l ih =>
    simp only [List.cons_append, tightenAfter, operatorAhead_append hc l m, ih]
    split_ifs <;> rfl

theorem getLast?_tightenAfter (hc : isBlank c = false) (l : List Char) :
    (tightenAfter b (l ++ [c])).getLast? = some c := by
  induction l generalizing b with
  | nil => simp [tightenAfter, hc]
  | cons d l ih =>
    simp only [List.cons_append, tightenAfter]
    split_ifs
    · exact ih
    · rw [List.getLast?_cons, ih]; rfl
    · rw [List.getLast?_cons, ih]; rfl

theorem getLast?_tighten (h : ∀ c ∈ l.getLast?, isWhiteSpace c = false) :
    (tighten l).getLast? = l.getLast? := by
  obtain rfl | ⟨l, c, rfl⟩ := l.eq_nil_or_concat'
  · rfl
  · rw [tighten, getLast?_tightenAfter (isBlank_of_not_isWhiteSpace (h c (by simp)))]
    simp

theorem head?_tighten (h : ∀ c ∈ l.head?, isWhiteSpace c = false) :
    (tighten l).head? = l.head? := by
  cases l with
  | nil => rfl
  | cons c l => rw [tighten, tightenAfter_cons (isBlank_of_not_isWhiteSpace (h c rfl))]; rfl

theorem tighten_sum (hl : IsTrimmed l) (hm : IsTrimmed m) (hl0 : l ≠ []) (hm0 : m ≠ []) :
    tighten (l ++ " + ".toList ++ m) = tighten l ++ '+' :: tighten m := by
  obtain ⟨l, c, rfl⟩ := l.eq_nil_or_concat'.resolve_left hl0
  obtain ⟨d, m, rfl⟩ := List.exists_cons_of_ne_nil hm0
  have hc := isBlank_of_not_isWhiteSpace (hl.last c (by simp))
  have hd := isBlank_of_not_isWhiteSpace (hm.head d rfl)
  have hblank : isBlank ' ' = true := by decide
  have hahead : operatorAhead ('+' :: ' ' :: d :: m) = true := operatorAhead_of_head ⟨'+', rfl, rfl⟩
  have hplus : tightenAfter (isOperator c) (' ' :: '+' :: ' ' :: d :: m) =
      '+' :: tightenAfter false (d :: m) := by
    rw [tightenAfter, if_pos hblank, hahead, Bool.or_true, if_pos rfl, tightenAfter_cons rfl,
      tightenAfter, if_pos hblank, isOperator, Bool.or_assoc]
    simp [tightenAfter_cons hd]
  have h := tightenAfter_append_cons (b := false) hc l (' ' :: '+' :: ' ' :: d :: m)
  rw [hplus] at h
  simpa [tighten] using h

end Spacing

theorem trim_sublist (l : List Char) : (trim l).Sublist l := by
  have hend : (trimEnd (trimStart l)).Sublist (trimStart l) := by
    rw [trimEnd, ← List.reverse_sublist, List.reverse_reverse]
    exact List.dropWhile_sublist _
  exact hend.trans (List.dropWhile_sublist _)

theorem Spacing.tighten_sublist (l : List Char) : (tighten l).Sublist l := by
  have h (b : Bool) : (tightenAfter b l).Sublist l := by
    induction l generalizing b with
    | nil => exact .slnil
    | cons c l ih =>
      unfold tightenAfter
      split_ifs
      · exact (ih _).cons c
      · exact (ih _).cons_cons c
      · exact (ih _).cons_cons c
  exact h false

theorem visible_append (fs gs : List (List Char)) : visible (fs ++ gs) = visible fs ++ visible gs :=
  List.filter_append fs gs

theorem cutAtSigns_sum (l m : List Char) : cutAtSigns (l ++ '+' :: m) =
    ((cutAtSigns l).1, (cutAtSigns l).2 ++ (cutAtSigns m).1 :: (cutAtSigns m).2) := by
  induction l with
  | nil => rfl
  | cons c l ih =>
    simp only [cutAtSigns, List.cons_append, List.foldr_cons] at ih ⊢
    rw [ih]
    split_ifs <;> rfl

theorem fragments_sum (l m : List Char) :
    fragments (l ++ '+' :: m) = fragments l ++ fragments m := by
  simp only [fragments_eq, cutAtSigns_sum, ← visible_append, List.cons_append]

theorem exists_mem_cutAtSigns (hc : c ≠ '+' ∧ c ≠ '-') (h : c ∈ l) :
    ∃ f ∈ (cutAtSigns l).1 :: (cutAtSigns l).2, c ∈ f := by
  induction l with
  | nil => cases h
  | cons d l ih =>
    rcases List.mem_cons.mp h with rfl | h
    · exact ⟨c :: (cutAtSigns l).1, by simp [cutAtSigns_cons hc], List.mem_cons_self⟩
    · obtain ⟨f, hf, hcf⟩ := ih h
      by_cases hp : d = '+'
      · rw [hp, cutAtSigns_plus]
        exact ⟨f, List.mem_cons_of_mem _ hf, hcf⟩
      by_cases hm : d = '-'
      · rw [hm, cutAtSigns_minus]
        rcases List.mem_cons.mp hf with rfl | hf
        · exact ⟨'-' :: (cutAtSigns l).1, by simp, by simp [hcf]⟩
        · exact ⟨f, by simp [hf], hcf⟩
      · rw [cutAtSigns_cons ⟨hp, hm⟩]
        rcases List.mem_cons.mp hf with rfl | hf
        · exact ⟨d :: (cutAtSigns l).1, by simp, by simp [hcf]⟩
        · exact ⟨f, by simp [hf], hcf⟩

theorem fragments_ne_nil (hs : c ≠ '+' ∧ c ≠ '-') (hw : isWhiteSpace c = false) (h : c ∈ l) :
    fragments l ≠ [] := by
  intro hnil
  obtain ⟨f, hf, hc⟩ := exists_mem_cutAtSigns hs h
  rw [fragments_eq, visible, List.filter_eq_nil_iff] at hnil
  have hall : f.all isWhiteSpace = true := by simpa using hnil f hf
  exact Bool.false_ne_true (hw.symm.trans (List.all_eq_true.mp hall c hc))

section

variable {P : Char → Prop} {f : List Char} (hl : ∀ c ∈ l, P c)
include hl

theorem forall_mem_cutAtSigns : (∀ c ∈ (cutAtSigns l).1, P c ∧ c ≠ '+' ∧ c ≠ '-') ∧
    ∀ f ∈ (cutAtSigns l).2,
      ∃ body, (f = body ∨ f = '-' :: body) ∧ ∀ c ∈ body, P c ∧ c ≠ '+' ∧ c ≠ '-' := by
  induction l with
  | nil => simp [cutAtSigns]
  | cons d l ih =>
    obtain ⟨hd, hl⟩ := List.forall_mem_cons.mp hl
    obtain ⟨hfirst, hlater⟩ := ih hl
    by_cases hp : d = '+'
    · rw [hp, cutAtSigns_plus]
      exact ⟨by simp, List.forall_mem_cons.mpr ⟨⟨_, .inl rfl, hfirst⟩, hlater⟩⟩
    by_cases hm : d = '-'
    · rw [hm, cutAtSigns_minus]
      exact ⟨by simp, List.forall_mem_cons.mpr ⟨⟨_, .inr rfl, hfirst⟩, hlater⟩⟩
    · rw [cutAtSigns_cons ⟨hp, hm⟩]
      exact ⟨List.forall_mem_cons.mpr ⟨⟨hd, hp, hm⟩, hfirst⟩, hlater⟩

theorem exists_body_of_mem_fragments (h : f ∈ fragments l) :
    ∃ body, (f = body ∨ f = '-' :: body) ∧ ∀ c ∈ body, P c ∧ c ≠ '+' ∧ c ≠ '-' := by
  obtain ⟨hfirst, hlater⟩ := forall_mem_cutAtSigns hl
  rw [fragments_eq, visible, List.mem_filter] at h
  rcases List.mem_cons.mp h.1 with rfl | hf
  · exact ⟨_, .inl rfl, hfirst⟩
  · exact hlater f hf

end

theorem hasConsecutivePlus_iff : hasConsecutivePlus l = true ↔ "++".toList <:+: l := by
  induction l with
  | nil => decide
  | cons c l ih =>
    rw [List.infix_cons_iff, ← ih]
    by_cases hc : c = '+'
    · cases l with
      | nil => simp [hc, hasConsecutivePlus]
      | cons d l =>
        by_cases hd : d = '+'
        · simp [hc, hd, hasConsecutivePlus]
        · simp [hc, Ne.symm hd, hasConsecutivePlus, hd]
    · simp [Summand.hasConsecutivePlus_cons hc, Ne.symm hc]

theorem not_hasConsecutivePlus_sum (hl : hasConsecutivePlus l = false)
    (hm : hasConsecutivePlus m = false) (hlast : l.getLast? ≠ some '+')
    (hhead : m.head? ≠ some '+') : hasConsecutivePlus (l ++ '+' :: m) = false := by
  rw [← Bool.not_eq_true, hasConsecutivePlus_iff] at *
  refine not_infix_append_of_last hl ?_ fun c hc hp => hlast ?_
  · rw [List.infix_cons_iff]
    rintro (⟨k, hk⟩ | h)
    · simp at hk
      exact hhead (by simp [← hk])
    · exact hm h
  · simp at hp
    rw [← hp]
    exact hc

theorem readFragments_append {fs gs : List (List Char)} {reads : List ReadTerm}
    (h : readFragments fs = (reads, none)) :
    readFragments (fs ++ gs) = (reads ++ (readFragments gs).1, (readFragments gs).2) := by
  induction fs generalizing reads with
  | nil => cases h; rfl
  | cons f fs ih =>
    rw [List.cons_append]
    cases hf : Term.read f with
    | error fault => rw [readFragments_cons_error hf] at h; cases h
    | ok t? =>
      cases t? with
      | none =>
        rw [readFragments_cons_none hf] at h ⊢
        exact ih h
      | some t =>
        rw [readFragments_cons_some hf] at h ⊢
        obtain ⟨rfl, hnone⟩ := Prod.mk.inj h
        rw [ih (Prod.ext rfl hnone)]
        rfl

end PolyEq
