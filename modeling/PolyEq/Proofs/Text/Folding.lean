import PolyEq.Proofs.Text.Infix
import PolyEq.Proofs.Text.Summands

/-! # Texts with folded signs

A text is folded if no minus sign follows an operator. Each of the texts that this forbids ends in
a minus sign. So a text without one may always follow, and after a value, which does not end like
an operator, a folded text begins anew.
-/

namespace PolyEq

open Display (signed)

variable {l m v p : List Char} {c : Char} {texts : List (List Char)} {n : ℤ}

def clashes : List (List Char) :=
  ["+ -".toList, "- -".toList, "--".toList]

/-- No minus sign stands after an operator where it could be folded into it. -/
def Folded (text : List Char) : Prop :=
  ∀ p ∈ clashes, ¬ p <:+: text

instance (text : List Char) : Decidable (Folded text) :=
  inferInstanceAs (Decidable (∀ p ∈ clashes, _))

/-- A value with a minus sign may follow. -/
def Ready (text : List Char) : Prop :=
  Folded (text ++ ['-'])

instance (text : List Char) : Decidable (Ready text) :=
  inferInstanceAs (Decidable (Folded _))

@[simp] theorem folded_nil : Folded [] := by
  decide

@[simp] theorem folded_cons_iff : Folded (c :: l) ↔
    (¬ "+ -".toList <+: c :: l ∧ ¬ "- -".toList <+: c :: l ∧ ¬ "--".toList <+: c :: l) ∧
      Folded l := by
  simp only [Folded, clashes, List.forall_mem_cons, List.infix_cons_iff, List.not_mem_nil,
    IsEmpty.forall_iff, implies_true, and_true]
  tauto

@[simp] theorem ready_nil : Ready [] := by
  decide

@[simp] theorem ready_cons_iff : Ready (c :: l) ↔
    (¬ "+ -".toList <+: c :: (l ++ ['-']) ∧ ¬ "- -".toList <+: c :: (l ++ ['-']) ∧
      ¬ "--".toList <+: c :: (l ++ ['-'])) ∧ Ready l :=
  folded_cons_iff

theorem folded_iff : Folded l ↔
    ¬ "+ -".toList <:+: l ∧ ¬ "- -".toList <:+: l ∧ ¬ "--".toList <:+: l := by
  simp only [Folded, clashes, List.forall_mem_cons, List.not_mem_nil, IsEmpty.forall_iff,
    implies_true, and_true]

theorem exists_of_mem_clashes (h : p ∈ clashes) : ∃ q, p = q ++ ['-'] := by
  simp only [clashes, List.mem_cons, List.not_mem_nil, or_false] at h
  rcases h with rfl | rfl | rfl
  · exact ⟨"+ ".toList, rfl⟩
  · exact ⟨"- ".toList, rfl⟩
  · exact ⟨"-".toList, rfl⟩

theorem notMem_of_mem_clashes (hc : c ≠ '+' ∧ c ≠ '-' ∧ c ≠ ' ') (h : p ∈ clashes) : c ∉ p := by
  simp only [clashes, List.mem_cons, List.not_mem_nil, or_false] at h
  rcases h with rfl | rfl | rfl <;> simp [hc]

theorem not_infix_append_of_notMem (hl : ¬ p ++ [c] <:+: l) (hc : c ∉ m) :
    ¬ p ++ [c] <:+: l ++ m := by
  rw [List.infix_append_iff]
  rintro (hi | hi | ⟨q, r, heq, hq, hr⟩)
  · exact hl hi
  · exact hc (hi.subset (by simp))
  · rcases r.eq_nil_or_concat' with rfl | ⟨r, d, rfl⟩
    · rw [List.append_nil] at heq
      exact hl (heq ▸ hq.isInfix)
    · rw [← List.append_assoc] at heq
      obtain ⟨-, hcd⟩ := List.append_inj' heq rfl
      obtain rfl : c = d := by simpa using hcd
      exact hc (hr.subset (by simp))

namespace Folded

theorem append_of_notMem (hl : Folded l) (hm : '-' ∉ m) : Folded (l ++ m) := by
  intro p hp
  obtain ⟨q, rfl⟩ := exists_of_mem_clashes hp
  exact not_infix_append_of_notMem (hl _ hp) hm

theorem append_of_last (hl : Folded l) (hm : Folded m)
    (h : ∀ c ∈ l.getLast?, c ≠ '+' ∧ c ≠ '-' ∧ c ≠ ' ') : Folded (l ++ m) :=
  fun p hp => not_infix_append_of_last (hl p hp) (hm p hp) fun c hc =>
    notMem_of_mem_clashes (h c hc) hp

theorem append_of_head (hl : Folded l) (hm : Folded m)
    (h : ∀ c ∈ m.head?, c ≠ '+' ∧ c ≠ '-' ∧ c ≠ ' ') : Folded (l ++ m) :=
  fun p hp => not_infix_append_of_head (hl p hp) (hm p hp) fun c hc =>
    notMem_of_mem_clashes (h c hc) hp

theorem of_append (h : Folded (l ++ m)) : Folded l :=
  fun p hp hi => h p hp (hi.trans (List.prefix_append l m).isInfix)

theorem insert (hl : Folded l) (hv : IsMagnitude v) (hm : Folded m) : Folded (l ++ v ++ m) := by
  refine append_of_last (hl.append_of_notMem fun h => (hv.notSign _ h).2 rfl) hm fun c hc => ?_
  rw [List.getLast?_append_of_ne_nil _ hv.ne_nil] at hc
  have hsign := hv.notSign c (List.mem_of_getLast? hc)
  exact ⟨hsign.1, hsign.2, hv.last c hc⟩

end Folded

namespace Ready

theorem folded (h : Ready l) : Folded l :=
  Folded.of_append h

theorem insert (hl : Ready l) (hv : IsSummand v) (hm : Folded m) : Folded (l ++ v ++ m) := by
  obtain ⟨s, k, hk, rfl⟩ := hv
  cases s with
  | positive => exact hl.folded.insert hk hm
  | negative => simpa [signed] using Folded.insert hl hk hm

theorem insert_ready (hl : Ready l) (hv : IsSummand v) (hm : Ready m) : Ready (l ++ v ++ m) := by
  simpa only [Ready, List.append_assoc] using hl.insert hv hm

end Ready

/-- The signs of later summands become operators. -/
theorem folded_flatMap_laterSummand (h : ∀ t ∈ texts, IsSummand t) (hm : Folded m) :
    Folded (texts.flatMap laterSummand ++ m) := by
  induction texts with
  | nil => exact hm
  | cons t texts ih =>
    obtain ⟨⟨s, k, hk, rfl⟩, hlater⟩ := List.forall_mem_cons.mp h
    rw [List.flatMap_cons, laterSummand_signed s hk.ne_minus, List.append_assoc]
    cases s with
    | positive => exact Folded.insert (l := " + ".toList) (by decide) hk (ih hlater)
    | negative => exact Folded.insert (l := " - ".toList) (by decide) hk (ih hlater)

theorem Ready.insert_sum (hl : Ready l) (h : ∀ t ∈ texts, IsSummand t) (h0 : texts ≠ [])
    (hm : Folded m) : Folded (l ++ sumText texts ++ m) := by
  obtain ⟨first, later, rfl⟩ := List.exists_cons_of_ne_nil h0
  obtain ⟨hfirst, hlater⟩ := List.forall_mem_cons.mp h
  have hrest := folded_flatMap_laterSummand hlater hm
  simpa only [sumText, List.append_assoc] using hl.insert hfirst hrest

end PolyEq
