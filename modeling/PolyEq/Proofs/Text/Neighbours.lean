import PolyEq.Proofs.Equation.Contribution
import Mathlib.Data.List.Chain

/-! # Neighbours in a text

Splitting, trimming and tightening never separate two characters, and tightening removes what is
blank between them if one is an operator. A sign is a neighbour of the fragments around it, so the
neighbours in a text are those in its fragments.
-/

namespace PolyEq

open Spacing

variable {b : Bool} {c d : Char} {l m p gap left right text : List Char}

theorem infix_trim (hp : IsTrimmed p) (h0 : p ≠ []) (h : p <:+: l) : p <:+: trim l := by
  obtain ⟨before, after, rfl⟩ := h
  have hstart : ∃ before', trimStart (before ++ p ++ after) = before' ++ p ++ after := by
    rw [List.append_assoc]
    rcases eq_or_ne (trimStart before) [] with hs | hs
    · refine ⟨[], ?_⟩
      rw [trimStart_append_of_eq hs, trimStart_eq_self, List.nil_append]
      rw [List.head?_append_of_ne_nil _ h0]
      exact hp.head
    · exact ⟨trimStart before, by rw [trimStart_append_of_ne hs, List.append_assoc]⟩
  obtain ⟨before', hstart⟩ := hstart
  rw [trim, hstart]
  rcases eq_or_ne (trimEnd after) [] with he | he
  · rw [trimEnd_append_of_eq he, trimEnd_eq_self]
    · exact (List.suffix_append before' p).isInfix
    · rw [List.getLast?_append_of_ne_nil _ h0]
      exact hp.last
  · rw [trimEnd_append_of_ne he]
    exact List.infix_append before' p _

theorem infix_side (h0 : p ≠ []) (hp : '=' ∉ p) (h : p <:+: l ++ '=' :: m) :
    p <:+: l ∨ p <:+: m := by
  by_contra hnot
  obtain ⟨hl, hm⟩ := not_or.mp hnot
  refine not_infix_append_of_head hl ?_ ?_ h
  · rw [List.infix_cons_iff, List.prefix_cons_iff]
    rintro ((rfl | ⟨q, rfl, -⟩) | h)
    · exact h0 rfl
    · exact hp List.mem_cons_self
    · exact hm h
  · rintro _ ⟨rfl⟩
    exact hp

theorem infix_of_splitSides (hsides : splitSides text = .ok (left, right)) (hp : IsTrimmed p)
    (h0 : p ≠ []) (heq : '=' ∉ p) (h : p <:+: text) : p <:+: left ∨ p <:+: right := by
  have hcount : text.count '=' = 1 := by
    by_contra hcount
    rw [splitSides_of_count hcount] at hsides
    cases hsides
  obtain ⟨l, r, rfl, hl, hr⟩ := exists_sides hcount
  rw [splitSides_append hl hr] at hsides
  split_ifs at hsides
  cases hsides
  exact (infix_side h0 heq h).imp (infix_trim hp h0) (infix_trim hp h0)

namespace Spacing

theorem filter_tightenAfter (b : Bool) (l : List Char) :
    (tightenAfter b l).filter (!isBlank ·) = l.filter (!isBlank ·) := by
  induction l generalizing b with
  | nil => rfl
  | cons c l ih =>
    unfold tightenAfter
    split_ifs with hc
    · rw [ih, List.filter_cons_of_neg (by simp [hc])]
    · rw [List.filter_cons_of_neg (by simp [hc]), List.filter_cons_of_neg (by simp [hc]), ih]
    · rw [List.filter_cons_of_pos (by simpa using hc), List.filter_cons_of_pos (by simpa using hc),
        ih]

theorem exists_tightenAfter_concat (b : Bool) (hc : isBlank c = false) (l : List Char) :
    ∃ m, tightenAfter b (l ++ [c]) = m ++ [c] :=
  List.getLast?_eq_some_iff.mp (getLast?_tightenAfter hc l)

theorem exists_tighten_eq (hc : isBlank c = false) (hd : isBlank d = false)
    (h : c :: (gap ++ [d]) <:+: l) : ∃ before after,
      tighten l = before ++ c :: (tightenAfter (isOperator c) (gap ++ [d]) ++ after) := by
  obtain ⟨before, after, rfl⟩ := h
  obtain ⟨before', hbefore⟩ := exists_tightenAfter_concat false hc before
  refine ⟨before', tightenAfter (isOperator d) after, ?_⟩
  have hl : before ++ c :: (gap ++ [d]) ++ after = before ++ c :: (gap ++ d :: after) := by simp
  rw [hl, tighten, tightenAfter_append_cons hc, tightenAfter_append_cons hd, hbefore,
    List.append_assoc]
  rfl

theorem exists_of_tightenAfter (hc : isBlank c = false) {before after : List Char}
    (h : tightenAfter b l = before ++ c :: after) : ∃ before' after', l = before' ++ c :: after' ∧
      tightenAfter b (before' ++ [c]) = before ++ [c] ∧
      tightenAfter (isOperator c) after' = after := by
  induction l generalizing b before with
  | nil => simp [tightenAfter] at h
  | cons d l ih =>
    unfold tightenAfter at h
    split_ifs at h with hd hop
    · obtain ⟨before', after', rfl, hbefore, hafter⟩ := ih h
      rw [operatorAhead_append hc] at hop
      refine ⟨d :: before', after', rfl, ?_, hafter⟩
      rw [List.cons_append, tightenAfter, if_pos hd, if_pos hop, hbefore]
    · rcases List.cons_eq_append_iff.mp h with ⟨-, heq⟩ | ⟨rest, rfl, hrest⟩
      · obtain ⟨rfl, -⟩ := List.cons.inj heq
        exact absurd (hc.symm.trans hd) Bool.false_ne_true
      · obtain ⟨before', after', rfl, hbefore, hafter⟩ := ih hrest
        rw [operatorAhead_append hc] at hop
        refine ⟨d :: before', after', rfl, ?_, hafter⟩
        rw [List.cons_append, tightenAfter, if_pos hd, if_neg hop, hbefore, List.cons_append]
    · rcases List.cons_eq_append_iff.mp h with ⟨rfl, heq⟩ | ⟨rest, rfl, hrest⟩
      · obtain ⟨rfl, rfl⟩ := List.cons.inj heq
        exact ⟨[], l, rfl, tightenAfter_cons hc, rfl⟩
      · obtain ⟨before', after', rfl, hbefore, hafter⟩ := ih hrest
        refine ⟨d :: before', after', rfl, ?_, hafter⟩
        rw [List.cons_append, tightenAfter, if_neg hd, hbefore, List.cons_append]

end Spacing

theorem exists_cutAtSigns_eq (l : List Char) : ∃ m, l = (cutAtSigns l).1 ++ m ∧
    StartsWithSign m ∧ (cutAtSigns m).2 = (cutAtSigns l).2 := by
  induction l with
  | nil => exact ⟨[], rfl, by simp [StartsWithSign], rfl⟩
  | cons c l ih =>
    by_cases hp : c = '+'
    · refine ⟨c :: l, by rw [hp, cutAtSigns_plus]; rfl, ?_, rfl⟩
      rintro _ ⟨rfl⟩
      exact .inl hp
    by_cases hm : c = '-'
    · refine ⟨c :: l, by rw [hm, cutAtSigns_minus]; rfl, ?_, rfl⟩
      rintro _ ⟨rfl⟩
      exact .inr hm
    · obtain ⟨m, hl, hm', hcut⟩ := ih
      rw [cutAtSigns_cons ⟨hp, hm⟩]
      exact ⟨m, congrArg (c :: ·) hl, hm', hcut⟩

theorem exists_of_cutAtSigns {earlier later : List (List Char)} {fragment : List Char}
    (h : (cutAtSigns l).2 = earlier ++ fragment :: later) (hf : fragment.head? ≠ some '-') :
    ∃ before after, l = before ++ '+' :: (fragment ++ after) ∧ StartsWithSign after ∧
      (cutAtSigns after).2 = later := by
  induction l generalizing earlier with
  | nil => simp [cutAtSigns] at h
  | cons c l ih =>
    have hlater {earlier : List (List Char)} (h : (cutAtSigns l).2 = earlier ++ fragment :: later) :
        ∃ before after, c :: l = before ++ '+' :: (fragment ++ after) ∧ StartsWithSign after ∧
          (cutAtSigns after).2 = later := by
      obtain ⟨before, after, hl, hafter⟩ := ih h
      exact ⟨c :: before, after, congrArg (c :: ·) hl, hafter⟩
    by_cases hp : c = '+'
    · subst hp
      rw [cutAtSigns_plus] at h
      rcases List.cons_eq_append_iff.mp h with ⟨-, heq⟩ | ⟨rest, -, hrest⟩
      · obtain ⟨rfl, rfl⟩ := List.cons.inj heq
        obtain ⟨m, hl, hm⟩ := exists_cutAtSigns_eq l
        exact ⟨[], m, congrArg ('+' :: ·) hl, hm⟩
      · exact hlater hrest
    by_cases hm : c = '-'
    · subst hm
      rw [cutAtSigns_minus] at h
      rcases List.cons_eq_append_iff.mp h with ⟨-, heq⟩ | ⟨rest, -, hrest⟩
      · obtain ⟨rfl, -⟩ := List.cons.inj heq
        exact absurd rfl hf
      · exact hlater hrest
    · rw [cutAtSigns_cons ⟨hp, hm⟩] at h
      exact hlater h

end PolyEq
