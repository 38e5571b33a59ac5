import PolyEq.Text.Spacing
import PolyEq.Text.WhiteSpace
import Mathlib.Data.List.Basic
import Mathlib.Data.List.TakeWhile

/-! # Blanks without meaning

Tightening removes the blanks beside operators, and trimming those at the ends of a text. So
blanks that are inserted at such a place leave no trace once a text is trimmed and tightened.
-/

namespace PolyEq

variable {b : Bool} {p : Char → Bool} {before blanks after : List Char}

/-- A place between two parts of a text that is at one of its ends or beside a character of the
given kind. -/
def Seam (p : Char → Bool) (before after : List Char) : Prop :=
  before = [] ∨ after = [] ∨ (∃ c ∈ before.getLast?, p c = true) ∨ ∃ c ∈ after.head?, p c = true

namespace Spacing

variable {c : Char}

theorem isBlank_of_isOperator (h : isOperator c = true) : isBlank c = false := by
  simp only [isOperator, Bool.or_eq_true, beq_iff_eq] at h
  rcases h with ((rfl | rfl) | rfl) | rfl <;> decide

theorem isWhiteSpace_of_isBlank (h : isBlank c = true) : isWhiteSpace c = true := by
  simp only [isBlank, Bool.or_eq_true, beq_iff_eq] at h
  rcases h with ((rfl | rfl) | rfl) | rfl <;> decide

theorem isBlank_of_not_isWhiteSpace (h : isWhiteSpace c = false) : isBlank c = false := by
  by_contra hb
  rw [Bool.not_eq_false] at hb
  exact Bool.false_ne_true (h.symm.trans (isWhiteSpace_of_isBlank hb))

theorem tightenAfter_cons (h : isBlank c = false) :
    tightenAfter b (c :: after) = c :: tightenAfter (isOperator c) after := by
  simp [tightenAfter, h]

theorem operatorAhead_of_head (h : ∃ c ∈ after.head?, isOperator c = true) :
    operatorAhead after = true := by
  obtain ⟨c, hc, ho⟩ := h
  obtain ⟨later, rfl⟩ := List.head?_eq_some_iff.mp hc
  simp [operatorAhead, isBlank_of_isOperator ho, ho]

variable (hb : ∀ c ∈ blanks, isBlank c = true)
include hb

theorem operatorAhead_insert (before after : List Char) :
    operatorAhead (before ++ (blanks ++ after)) = operatorAhead (before ++ after) := by
  induction before with
  | nil => simp only [operatorAhead, List.nil_append, List.dropWhile_append_of_pos hb]
  | cons c before ih =>
    simp only [operatorAhead, List.cons_append, List.dropWhile_cons] at ih ⊢
    split
    · exact ih
    · rfl

theorem tightenAfter_blanks (h : b = true ∨ ∃ c ∈ after.head?, isOperator c = true) :
    tightenAfter b (blanks ++ after) = tightenAfter b after := by
  induction blanks with
  | nil => rfl
  | cons c blanks ih =>
    obtain ⟨hc, hb⟩ := List.forall_mem_cons.mp hb
    have hahead : (b || operatorAhead (blanks ++ after)) = true := by
      rcases h with rfl | h
      · rfl
      · have hs := operatorAhead_insert hb [] after
        simp only [List.nil_append, operatorAhead_of_head h] at hs
        rw [hs, Bool.or_true]
    rw [List.cons_append, tightenAfter, if_pos hc, if_pos hahead]
    exact ih hb

theorem tightenAfter_insert (h : (∃ c ∈ before.getLast?, isOperator c = true) ∨
      ∃ c ∈ after.head?, isOperator c = true) :
    tightenAfter b (before ++ (blanks ++ after)) = tightenAfter b (before ++ after) := by
  induction before generalizing b with
  | nil => exact tightenAfter_blanks hb (.inr (h.resolve_left (by simp)))
  | cons c before ih =>
    have hahead := operatorAhead_insert hb before after
    simp only [List.cons_append, tightenAfter, hahead]
    rcases before.eq_nil_or_concat' with rfl | ⟨_, d, rfl⟩
    · -- the blanks stand directly after `c`
      split
      · next hc =>
        have hafter := h.resolve_left fun ⟨d, hd, ho⟩ => by
          obtain rfl : c = d := by simpa using hd
          exact Bool.false_ne_true ((isBlank_of_isOperator ho).symm.trans hc)
        simp only [List.nil_append, tightenAfter_blanks hb (.inr hafter)]
      · refine congrArg _ (tightenAfter_blanks hb (h.imp_left ?_))
        rintro ⟨_, ⟨rfl⟩, ho⟩
        exact ho
    · rw [List.getLast?_cons_of_ne_nil (by simp)] at h
      simp only [ih h]

end Spacing

section Trim

variable {l m : List Char}

theorem trimStart_append_of_ne (h : trimStart l ≠ []) (m : List Char) :
    trimStart (l ++ m) = trimStart l ++ m := by
  have h : (l.dropWhile isWhiteSpace).isEmpty = false := by simpa [trimStart] using h
  simp [trimStart, List.dropWhile_append, h]

theorem trimStart_append_of_eq (h : trimStart l = []) (m : List Char) :
    trimStart (l ++ m) = trimStart m := by
  have h : (l.dropWhile isWhiteSpace).isEmpty = true := by simpa [trimStart] using h
  simp [trimStart, List.dropWhile_append, h]

theorem trimEnd_eq (l : List Char) : trimEnd l = (trimStart l.reverse).reverse := rfl

theorem trimEnd_append_of_ne (h : trimEnd m ≠ []) (l : List Char) :
    trimEnd (l ++ m) = l ++ trimEnd m := by
  simp only [trimEnd_eq, ne_eq, List.reverse_eq_nil_iff] at h
  simp [trimEnd_eq, trimStart_append_of_ne h]

theorem trimEnd_append_of_eq (h : trimEnd m = []) (l : List Char) :
    trimEnd (l ++ m) = trimEnd l := by
  simp only [trimEnd_eq, List.reverse_eq_nil_iff] at h
  simp [trimEnd_eq, trimStart_append_of_eq h]

theorem getLast?_trimStart (h : trimStart l ≠ []) : (trimStart l).getLast? = l.getLast? := by
  have hl : l.takeWhile isWhiteSpace ++ trimStart l = l := List.takeWhile_append_dropWhile
  rw [← List.getLast?_append_of_ne_nil _ h, hl]

theorem head?_trimEnd (h : trimEnd l ≠ []) : (trimEnd l).head? = l.head? := by
  rw [trimEnd_eq, ne_eq, List.reverse_eq_nil_iff] at h
  rw [trimEnd_eq, List.head?_reverse, getLast?_trimStart h, List.getLast?_reverse]

end Trim

open Spacing in
/-- Trimming and tightening give the same, and both texts are blank or none is. -/
structure SameSide (l m : List Char) : Prop where
  tighten_eq : tighten (trim l) = tighten (trim m)
  blank_iff : trim l = [] ↔ trim m = []

theorem SameSide.refl (l : List Char) : SameSide l l :=
  ⟨rfl, .rfl⟩

theorem SameSide.of_trim_eq {l m : List Char} (h : trim l = trim m) : SameSide l m :=
  ⟨by rw [h], by rw [h]⟩

open Spacing in
/-- Blanks inserted at a seam of the operators leave no trace. -/
theorem Seam.sameSide (h : Seam isOperator before after)
    (hb : ∀ c ∈ blanks, isBlank c = true) :
    SameSide (before ++ (blanks ++ after)) (before ++ after) := by
  have hstart : trimStart blanks = [] := by
    simpa [trimStart, List.dropWhile_eq_nil_iff] using fun c hc => isWhiteSpace_of_isBlank (hb c hc)
  have hend : trimEnd blanks = [] := by
    simpa [trimEnd, List.dropWhile_eq_nil_iff] using fun c hc => isWhiteSpace_of_isBlank (hb c hc)
  rcases eq_or_ne (trimStart before) [] with hs | hs
  · refine .of_trim_eq ?_
    simp only [trim, trimStart_append_of_eq hs, trimStart_append_of_eq hstart]
  rcases eq_or_ne (trimEnd after) [] with he | he
  · refine .of_trim_eq ?_
    have hend' : trimEnd (blanks ++ after) = [] := (trimEnd_append_of_eq he _).trans hend
    simp only [trim, trimStart_append_of_ne hs, trimEnd_append_of_eq he, trimEnd_append_of_eq hend']
  · -- both parts keep something, and the operator stands on the same side of the seam
    have hop : (∃ c ∈ (trimStart before).getLast?, isOperator c = true) ∨
        ∃ c ∈ (trimEnd after).head?, isOperator c = true := by
      rw [getLast?_trimStart hs, head?_trimEnd he]
      rcases h with rfl | rfl | h | h
      · exact absurd rfl hs
      · exact absurd rfl he
      · exact .inl h
      · exact .inr h
    have htrim (m : List Char) : trim (before ++ (m ++ after)) =
        trimStart before ++ (m ++ trimEnd after) := by
      have hm : trimEnd (m ++ after) ≠ [] := by
        simp [trimEnd_append_of_ne he, he]
      simp only [trim, trimStart_append_of_ne hs, trimEnd_append_of_ne hm, trimEnd_append_of_ne he]
    have h0 := htrim []
    simp only [List.nil_append] at h0
    refine ⟨?_, ?_⟩
    · rw [htrim, h0]
      exact tightenAfter_insert hb hop
    · rw [htrim, h0]
      simp [hs]

end PolyEq
