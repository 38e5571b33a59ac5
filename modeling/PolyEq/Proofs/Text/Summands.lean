import PolyEq.Proofs.Text.Sum

/-! # A sum determines its summands

A summand has no sign but a minus sign at its beginning, and no blank at its end. The operators of
a sum stand between blanks, so they show where each of its summands ends.
-/

namespace PolyEq

open Float.Model.UnpackedFloat (Sign)
open Display (signed)

variable {l m k rest rest' text text' : List Char} {texts texts' : List (List Char)}

structure IsMagnitude (text : List Char) : Prop where
  ne_nil : text ≠ []
  notSign : ∀ c ∈ text, c ≠ '+' ∧ c ≠ '-'
  last : ∀ c ∈ text.getLast?, c ≠ ' '

def IsSummand (text : List Char) : Prop :=
  ∃ s l, IsMagnitude l ∧ text = signed s l

/-- What follows a summand is nothing, or an operator after a blank. -/
def StartsWithOperator (rest : List Char) : Prop :=
  rest = [] ∨ ∃ c later, (c = '+' ∨ c = '-') ∧ rest = ' ' :: c :: later

namespace IsMagnitude

theorem ne_minus (h : IsMagnitude l) (later : List Char) : l ≠ '-' :: later := by
  rintro rfl
  exact (h.notSign '-' List.mem_cons_self).2 rfl

theorem append (h : IsMagnitude l) (hm : ∀ c ∈ m, c ≠ '+' ∧ c ≠ '-')
    (hlast : ∀ c ∈ m.getLast?, c ≠ ' ') : IsMagnitude (l ++ m) where
  ne_nil := by simp [h.ne_nil]
  notSign c hc := (List.mem_append.mp hc).elim (h.notSign c) (hm c)
  last := forall_getLast?_append h.last hlast

theorem eq_nil_of_append (h : IsMagnitude (l ++ k)) (hr : StartsWithOperator (k ++ rest)) :
    k = [] := by
  rcases hr with hr | ⟨c, later, hc, hr⟩
  · exact (List.append_eq_nil_iff.mp hr).1
  · rcases k with _ | ⟨b, _ | ⟨d, k⟩⟩
    · rfl
    · obtain ⟨rfl, -⟩ := List.cons.inj hr
      exact absurd rfl (h.last ' ' (by simp))
    · obtain ⟨-, hr⟩ := List.cons.inj hr
      obtain ⟨rfl, -⟩ := List.cons.inj hr
      have hd := h.notSign d (by simp)
      exact absurd hc (not_or.mpr hd)

theorem append_inj (hl : IsMagnitude l) (hm : IsMagnitude m) (hr : StartsWithOperator rest)
    (hr' : StartsWithOperator rest') (h : l ++ rest = m ++ rest') : l = m ∧ rest = rest' := by
  rcases List.append_eq_append_iff.mp h with ⟨k, rfl, rfl⟩ | ⟨k, rfl, rfl⟩
  · obtain rfl := hm.eq_nil_of_append hr
    simp
  · obtain rfl := hl.eq_nil_of_append hr'
    simp

end IsMagnitude

namespace IsSummand

theorem append (h : IsSummand l) (hm : ∀ c ∈ m, c ≠ '+' ∧ c ≠ '-')
    (hlast : ∀ c ∈ m.getLast?, c ≠ ' ') : IsSummand (l ++ m) := by
  obtain ⟨s, k, hk, rfl⟩ := h
  refine ⟨s, k ++ m, hk.append hm hlast, ?_⟩
  cases s <;> rfl

theorem append_inj (h : IsSummand text) (h' : IsSummand text') (hr : StartsWithOperator rest)
    (hr' : StartsWithOperator rest') (heq : text ++ rest = text' ++ rest') :
    text = text' ∧ rest = rest' := by
  obtain ⟨s, l, hl, rfl⟩ := h
  obtain ⟨s', m, hm, rfl⟩ := h'
  obtain ⟨c, l', rfl⟩ := List.exists_cons_of_ne_nil hl.ne_nil
  obtain ⟨d, m', rfl⟩ := List.exists_cons_of_ne_nil hm.ne_nil
  cases s with
  | positive =>
    cases s' with
    | positive => exact hl.append_inj hm hr hr' heq
    | negative => exact absurd (List.cons.inj heq).1 (hl.notSign c List.mem_cons_self).2
  | negative =>
    cases s' with
    | positive => exact absurd (List.cons.inj heq).1.symm (hm.notSign d List.mem_cons_self).2
    | negative =>
      obtain ⟨htext, hrest⟩ := hl.append_inj hm hr hr' (List.cons.inj heq).2
      exact ⟨congrArg _ htext, hrest⟩

theorem laterSummand_append_inj (h : IsSummand text) (h' : IsSummand text')
    (hr : StartsWithOperator rest) (hr' : StartsWithOperator rest')
    (heq : laterSummand text ++ rest = laterSummand text' ++ rest') :
    text = text' ∧ rest = rest' := by
  obtain ⟨s, l, hl, rfl⟩ := h
  obtain ⟨s', m, hm, rfl⟩ := h'
  rw [laterSummand_signed s hl.ne_minus, laterSummand_signed s' hm.ne_minus] at heq
  obtain ⟨-, heq⟩ := List.cons.inj heq
  obtain ⟨hs, heq⟩ := List.cons.inj heq
  obtain ⟨-, heq⟩ := List.cons.inj heq
  obtain ⟨rfl, hrest⟩ := hl.append_inj hm hr hr' heq
  obtain rfl : s = s' := by
    cases s <;> cases s' <;> first | rfl | cases hs
  exact ⟨rfl, hrest⟩

end IsSummand

theorem exists_laterSummand_eq (text : List Char) :
    ∃ c later, (c = '+' ∨ c = '-') ∧ laterSummand text = ' ' :: c :: later := by
  unfold laterSummand
  split
  · exact ⟨'-', _, .inr rfl, rfl⟩
  · exact ⟨'+', _, .inl rfl, rfl⟩

theorem startsWithOperator_flatMap (texts : List (List Char)) :
    StartsWithOperator (texts.flatMap laterSummand) := by
  cases texts with
  | nil => exact .inl rfl
  | cons text texts =>
    obtain ⟨c, later, hc, h⟩ := exists_laterSummand_eq text
    exact .inr ⟨c, later ++ texts.flatMap laterSummand, hc, by simp [h]⟩

theorem flatMap_laterSummand_inj (h : ∀ t ∈ texts, IsSummand t) (h' : ∀ t ∈ texts', IsSummand t)
    (heq : texts.flatMap laterSummand = texts'.flatMap laterSummand) : texts = texts' := by
  induction texts generalizing texts' with
  | nil =>
    cases texts' with
    | nil => rfl
    | cons text' texts' =>
      obtain ⟨c, later, -, hl⟩ := exists_laterSummand_eq text'
      simp [hl] at heq
  | cons text texts ih =>
    cases texts' with
    | nil =>
      obtain ⟨c, later, -, hl⟩ := exists_laterSummand_eq text
      simp [hl] at heq
    | cons text' texts' =>
      obtain ⟨ht, hlater⟩ := List.forall_mem_cons.mp h
      obtain ⟨ht', hlater'⟩ := List.forall_mem_cons.mp h'
      rw [List.flatMap_cons, List.flatMap_cons] at heq
      obtain ⟨rfl, hrest⟩ := ht.laterSummand_append_inj ht' (startsWithOperator_flatMap texts)
        (startsWithOperator_flatMap texts') heq
      rw [ih hlater hlater' hrest]

/-- Two sums of the same text have the same summands. -/
theorem sumText_inj (h : ∀ t ∈ texts, IsSummand t) (h' : ∀ t ∈ texts', IsSummand t)
    (h0 : texts ≠ []) (h0' : texts' ≠ []) (heq : sumText texts = sumText texts') :
    texts = texts' := by
  obtain ⟨first, later, rfl⟩ := List.exists_cons_of_ne_nil h0
  obtain ⟨first', later', rfl⟩ := List.exists_cons_of_ne_nil h0'
  obtain ⟨ht, hlater⟩ := List.forall_mem_cons.mp h
  obtain ⟨ht', hlater'⟩ := List.forall_mem_cons.mp h'
  obtain ⟨rfl, hrest⟩ := ht.append_inj ht' (startsWithOperator_flatMap later)
    (startsWithOperator_flatMap later') heq
  rw [flatMap_laterSummand_inj hlater hlater' hrest]

end PolyEq
