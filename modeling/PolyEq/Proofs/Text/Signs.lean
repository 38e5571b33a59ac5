import PolyEq.Proofs.Text.Sum
import Mathlib.Data.List.Basic

/-! # Runs of signs

A tightened side is a sequence of bodies without signs, each after a run of signs that is empty
at most before the first. Only the last sign of a run belongs to the body after it: every other
one stands alone in a fragment, and such a fragment is skipped.
-/

namespace PolyEq

/-- A run of signs and the text after it, up to the next sign or the end. -/
structure SignedPart where
  signs : List Char
  body : List Char
  isSign : ∀ c ∈ signs, c = '+' ∨ c = '-'
  notSign : ∀ c ∈ body, c ≠ '+' ∧ c ≠ '-'
  body_ne_nil : body ≠ []

namespace SignedPart

variable {p : SignedPart}

def text (p : SignedPart) : List Char :=
  p.signs ++ p.body

def hasMinus (p : SignedPart) : Bool :=
  p.signs.contains '-'

def endsInMinus (p : SignedPart) : Bool :=
  p.signs.getLast? == some '-'

def isBlank (p : SignedPart) : Bool :=
  p.body.all isWhiteSpace

theorem hasMinus_of_endsInMinus (h : p.endsInMinus = true) : p.hasMinus = true := by
  rw [endsInMinus, beq_iff_eq] at h
  exact List.contains_iff_mem.mpr (List.mem_of_getLast? h)

end SignedPart

open SignedPart

/-- The parts make up the text, and their runs of signs are as long as they can be. -/
structure IsCut (parts : List SignedPart) (text : List Char) : Prop where
  text_eq : text = parts.flatMap SignedPart.text
  later : ∀ p ∈ parts.tail, p.signs ≠ []

variable {c : Char} {l m text : List Char} {p : SignedPart} {parts : List SignedPart}

theorem exists_isCut (h : ∀ c ∈ text.getLast?, c ≠ '+' ∧ c ≠ '-') :
    ∃ parts, IsCut parts text := by
  induction text with
  | nil => exact ⟨[], rfl, by simp⟩
  | cons c text ih =>
    by_cases htext : text = []
    · subst htext
      have hc := h c rfl
      exact ⟨[⟨[], [c], by simp, by simpa using hc, by simp⟩], rfl, by simp⟩
    rw [List.getLast?_cons_of_ne_nil htext] at h
    obtain ⟨parts, rfl, hlater⟩ := ih h
    obtain ⟨p, parts, rfl⟩ := List.exists_cons_of_ne_nil (l := parts) (by rintro rfl; simp at htext)
    by_cases hc : c = '+' ∨ c = '-'
    · refine ⟨⟨c :: p.signs, p.body, ?_, p.notSign, p.body_ne_nil⟩ :: parts, rfl, hlater⟩
      exact List.forall_mem_cons.mpr ⟨hc, p.isSign⟩
    · have hc := not_or.mp hc
      by_cases hp : p.signs = []
      · refine ⟨⟨[], c :: p.body, by simp, ?_, by simp⟩ :: parts, ?_, hlater⟩
        · exact List.forall_mem_cons.mpr ⟨hc, p.notSign⟩
        · simp [SignedPart.text, hp]
      · refine ⟨⟨[], [c], by simp, by simpa using hc, by simp⟩ :: p :: parts, rfl, ?_⟩
        exact List.forall_mem_cons.mpr ⟨hp, hlater⟩

/-- The text after a body: nothing, or another run of signs. -/
def StartsWithSign (m : List Char) : Prop :=
  ∀ c ∈ m.head?, c = '+' ∨ c = '-'

theorem startsWithSign_flatMap (h : ∀ p ∈ parts, p.signs ≠ []) :
    StartsWithSign (parts.flatMap SignedPart.text) := by
  cases parts with
  | nil => simp [StartsWithSign]
  | cons p parts =>
    obtain ⟨s, signs, hs⟩ := List.exists_cons_of_ne_nil (h p List.mem_cons_self)
    intro c hc
    obtain rfl : s = c := by simpa [SignedPart.text, hs] using hc
    exact p.isSign s (by simp [hs])

def visible (fragments : List (List Char)) : List (List Char) :=
  fragments.filter fun fragment => !fragment.all isWhiteSpace

theorem fragments_eq (m : List Char) :
    fragments m = visible ((cutAtSigns m).1 :: (cutAtSigns m).2) := rfl

@[simp] theorem visible_nil_cons (fragments : List (List Char)) :
    visible ([] :: fragments) = visible fragments := rfl

@[simp] theorem visible_minus_cons (fragments : List (List Char)) :
    visible (('-' :: l) :: fragments) = ('-' :: l) :: visible fragments :=
  List.filter_cons_of_pos (by simp [isWhiteSpace])

@[simp] theorem cutAtSigns_plus (m : List Char) :
    cutAtSigns ('+' :: m) = ([], (cutAtSigns m).1 :: (cutAtSigns m).2) := rfl

@[simp] theorem cutAtSigns_minus (m : List Char) :
    cutAtSigns ('-' :: m) = ([], ('-' :: (cutAtSigns m).1) :: (cutAtSigns m).2) := rfl

theorem cutAtSigns_cons (hc : c ≠ '+' ∧ c ≠ '-') (m : List Char) :
    cutAtSigns (c :: m) = (c :: (cutAtSigns m).1, (cutAtSigns m).2) :=
  Summand.cutAtSigns_append (l := [c]) (by simpa using hc) m

theorem StartsWithSign.cutAtSigns_fst (h : StartsWithSign m) : (cutAtSigns m).1 = [] := by
  cases m with
  | nil => rfl
  | cons c m =>
    rcases h c rfl with rfl | rfl
    · rw [cutAtSigns_plus]
    · rw [cutAtSigns_minus]

theorem fragments_plus (m : List Char) : fragments ('+' :: m) = fragments m := by
  simp [fragments_eq]

theorem fragments_minus (m : List Char) :
    fragments ('-' :: m) = ('-' :: (cutAtSigns m).1) :: visible (cutAtSigns m).2 := by
  simp [fragments_eq]

/-- A minus sign that another sign follows is a fragment of its own, which is skipped. -/
theorem readFragments_sign (hc : c = '+' ∨ c = '-') (hm : StartsWithSign m) :
    readFragments (fragments (c :: m)) = readFragments (fragments m) := by
  rcases hc with rfl | rfl
  · rw [fragments_plus]
  · rw [fragments_minus, fragments_eq, hm.cutAtSigns_fst, visible_nil_cons]
    rfl

theorem readFragments_signs (h : ∀ c ∈ l, c = '+' ∨ c = '-') (m : List Char) :
    readFragments (fragments (l ++ m)) = readFragments (fragments (l.getLast?.toList ++ m)) := by
  induction l with
  | nil => rfl
  | cons c l ih =>
    obtain ⟨hc, hl⟩ := List.forall_mem_cons.mp h
    rcases l with _ | ⟨d, l⟩
    · rfl
    · have hstart : StartsWithSign (d :: l ++ m) := by
        rintro _ ⟨rfl⟩
        exact hl d List.mem_cons_self
      rw [List.cons_append, readFragments_sign hc hstart, ih hl,
        List.getLast?_cons_of_ne_nil (List.cons_ne_nil _ _)]

theorem fragments_body (hl : ∀ c ∈ l, c ≠ '+' ∧ c ≠ '-') (hm : StartsWithSign m) :
    fragments (l ++ m) = visible [l] ++ fragments m := by
  simp only [fragments_eq, Summand.cutAtSigns_append hl, hm.cutAtSigns_fst, List.append_nil,
    visible_nil_cons]
  exact List.filter_append [l] _

/-- The body of a part is read with the last sign of its run. -/
theorem SignedPart.readFragments_text (p : SignedPart) (hm : StartsWithSign m) :
    readFragments (fragments (p.text ++ m)) =
      if p.endsInMinus then readFragments (('-' :: p.body) :: fragments m)
      else readFragments (visible [p.body] ++ fragments m) := by
  have hbody := fragments_body p.notSign hm
  have hcut := Summand.cutAtSigns_append p.notSign m
  rw [hm.cutAtSigns_fst, List.append_nil] at hcut
  rw [SignedPart.text, List.append_assoc, readFragments_signs p.isSign, endsInMinus]
  rcases hlast : p.signs.getLast? with _ | c
  · exact congrArg readFragments hbody
  · rcases p.isSign c (List.mem_of_getLast? hlast) with rfl | rfl
    · exact congrArg readFragments ((fragments_plus _).trans hbody)
    · have hminus : fragments ('-' :: (p.body ++ m)) = ('-' :: p.body) :: fragments m := by
        rw [fragments_minus, hcut, fragments_eq, hm.cutAtSigns_fst, visible_nil_cons]
      exact congrArg readFragments hminus

end PolyEq
