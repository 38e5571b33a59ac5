import PolyEq.Equation.Reading
import PolyEq.Proofs.Text.Blanks
import Mathlib.Logic.Relation

/-! # Blanks in an equation

Spaces, tabs and line ends may be inserted at the ends of an equation, beside its operators and
beside its equals sign. Whatever is read of it, equation or error, stays the same.
-/

namespace PolyEq

open Spacing

variable {s t text left right left' right' before middle blanks after : List Char} {side : Side}

/-- Operators and the equals sign: blanks beside them have no meaning. -/
def isSeparator (c : Char) : Bool :=
  isOperator c || c == '='

/-- The second text is the first with blanks inserted at one place, at an end of the text or
directly beside a separator. -/
inductive BlanksInserted : List Char → List Char → Prop where
  | intro (before blanks after : List Char) (seam : Seam isSeparator before after)
      (blank : ∀ c ∈ blanks, isBlank c = true) :
      BlanksInserted (before ++ after) (before ++ (blanks ++ after))

theorem Seam.operator_left (h : Seam isSeparator before (middle ++ '=' :: right))
    (hbefore : '=' ∉ before) (hmiddle : '=' ∉ middle) : Seam isOperator before middle := by
  rcases h with h | h | ⟨c, hc, h⟩ | ⟨c, hc, h⟩
  · exact .inl h
  · simp at h
  · have hne : c ≠ '=' := fun he => hbefore (he ▸ List.mem_of_getLast? hc)
    exact .inr (.inr (.inl ⟨c, hc, by simpa [isSeparator, hne] using h⟩))
  · cases middle with
    | nil => exact .inr (.inl rfl)
    | cons d middle =>
      obtain rfl : d = c := by simpa using hc
      have hne : d ≠ '=' := fun he => hmiddle (he ▸ List.mem_cons_self)
      exact .inr (.inr (.inr ⟨d, rfl, by simpa [isSeparator, hne] using h⟩))

theorem Seam.operator_right (h : Seam isSeparator (left ++ '=' :: middle) after)
    (hmiddle : '=' ∉ middle) (hafter : '=' ∉ after) : Seam isOperator middle after := by
  rcases h with h | h | ⟨c, hc, h⟩ | ⟨c, hc, h⟩
  · simp at h
  · exact .inr (.inl h)
  · rcases middle.eq_nil_or_concat' with rfl | ⟨middle, d, rfl⟩
    · exact .inl rfl
    · rw [← List.cons_append, ← List.append_assoc, List.getLast?_concat] at hc
      obtain rfl : d = c := by simpa using hc
      have hne : d ≠ '=' := fun he => hmiddle (by simp [he])
      exact .inr (.inr (.inl ⟨d, by simp, by simpa [isSeparator, hne] using h⟩))
  · have hne : c ≠ '=' := fun he => hafter (he ▸ List.mem_of_head? hc)
    exact .inr (.inr (.inr ⟨c, hc, by simpa [isSeparator, hne] using h⟩))

theorem exists_sides (h : text.count '=' = 1) :
    ∃ left right, text = left ++ '=' :: right ∧ '=' ∉ left ∧ '=' ∉ right := by
  obtain ⟨left, right, rfl, hl⟩ := List.eq_append_cons_of_mem
    (List.count_pos_iff.mp (h ▸ Nat.one_pos))
  rw [List.count_append, List.count_eq_zero.mpr hl, List.count_cons_self, Nat.zero_add,
    Nat.add_eq_right, List.count_eq_zero] at h
  exact ⟨left, right, rfl, hl, h⟩

theorem splitSides_of_count (h : text.count '=' ≠ 1) :
    splitSides text = .error (.equalSigns (text.count '=')) :=
  if_pos h

theorem splitSides_append (hl : '=' ∉ left) (hr : '=' ∉ right) :
    splitSides (left ++ '=' :: right) =
      if trim left = [] then .error (.emptySide .left)
      else if trim right = [] then .error (.emptySide .right)
      else .ok (trim left, trim right) := by
  have hne (c) (hc : c ∈ left) : decide (c ≠ '=') = true := decide_eq_true fun h => hl (h ▸ hc)
  have hcount : (left ++ '=' :: right).count '=' = 1 := by
    simp [List.count_eq_zero.mpr hl, List.count_eq_zero.mpr hr]
  have htake : (left ++ '=' :: right).takeWhile (· ≠ '=') = left := by
    rw [List.takeWhile_append_of_pos hne]
    simp
  have hdrop : ((left ++ '=' :: right).dropWhile (· ≠ '=')).drop 1 = right := by
    rw [List.dropWhile_append_of_pos hne]
    simp
  unfold splitSides
  simp only [hcount, htake, hdrop]
  simp

theorem readSide_congr (h : tighten left = tighten left') :
    readSide side left = readSide side left' := by
  simp only [readSide, h]

namespace Equation

theorem readText_congr (hl : '=' ∉ left) (hr : '=' ∉ right) (hl' : '=' ∉ left')
    (hr' : '=' ∉ right') (h : SameSide left' left) (h' : SameSide right' right) :
    readText (left' ++ '=' :: right') = readText (left ++ '=' :: right) := by
  simp only [readText, splitSides_append hl hr, splitSides_append hl' hr', h.blank_iff,
    h'.blank_iff]
  split_ifs
  · rfl
  · rfl
  · simp only [bind, Except.bind, readSide_congr h.tighten_eq, readSide_congr h'.tighten_eq]

section

variable (hb : ∀ c ∈ blanks, isBlank c = true)
include hb

theorem equals_notMem_blanks : '=' ∉ blanks :=
  fun h => absurd (hb _ h) (by decide)

theorem readText_insert_left (hseam : Seam isSeparator before (middle ++ '=' :: right))
    (hl : '=' ∉ before ++ middle) (hr : '=' ∉ right) :
    readText (before ++ (blanks ++ (middle ++ '=' :: right))) =
      readText (before ++ (middle ++ '=' :: right)) := by
  have ⟨hbefore, hmiddle⟩ := not_or.mp (mt List.mem_append.mpr hl)
  have h := (hseam.operator_left hbefore hmiddle).sameSide hb
  have hl' : '=' ∉ before ++ (blanks ++ middle) := by
    simp [hbefore, equals_notMem_blanks hb, hmiddle]
  simpa only [List.append_assoc] using readText_congr hl hr hl' hr h (.refl right)

theorem readText_insert_right (hseam : Seam isSeparator (left ++ '=' :: middle) after)
    (hl : '=' ∉ left) (hr : '=' ∉ middle ++ after) :
    readText (left ++ '=' :: (middle ++ (blanks ++ after))) =
      readText (left ++ '=' :: (middle ++ after)) := by
  have ⟨hmiddle, hafter⟩ := not_or.mp (mt List.mem_append.mpr hr)
  have h := (hseam.operator_right hmiddle hafter).sameSide hb
  have hr' : '=' ∉ middle ++ (blanks ++ after) := by
    simp [hmiddle, equals_notMem_blanks hb, hafter]
  exact readText_congr hl hr hl hr' (.refl left) h

end

theorem readText_of_blanksInserted (h : BlanksInserted s t) : readText t = readText s := by
  obtain ⟨before, blanks, after, hseam, hb⟩ := h
  have hcount : (before ++ (blanks ++ after)).count '=' = (before ++ after).count '=' := by
    simp [List.count_eq_zero.mpr (equals_notMem_blanks hb)]
  by_cases h1 : (before ++ after).count '=' = 1
  · obtain ⟨left, right, heq, hl, hr⟩ := exists_sides h1
    -- the place of the blanks is before the equals sign or after it
    rcases List.append_eq_append_iff.mp heq with ⟨middle, rfl, rfl⟩ | ⟨middle, rfl, hafter⟩
    · exact readText_insert_left hb hseam hl hr
    · rcases List.cons_eq_append_iff.mp hafter with ⟨rfl, rfl⟩ | ⟨middle, rfl, rfl⟩
      · rw [List.append_nil, ← List.nil_append ('=' :: right)] at hseam
        rw [List.append_nil]
        exact readText_insert_left hb hseam (by simpa using hl) hr
      · simpa only [List.append_assoc, List.cons_append] using
          readText_insert_right hb hseam hl hr
  · have h1' := hcount ▸ h1
    simp only [readText, splitSides_of_count h1, splitSides_of_count h1', hcount]

/-- Blanks may be inserted anywhere beside separators and at the ends, any number of times. -/
theorem read_of_blanks_inserted {s t : String}
    (h : Relation.ReflTransGen BlanksInserted s.toList t.toList) : read t = read s := by
  unfold read
  generalize t.toList = u at h
  induction h with
  | refl => rfl
  | tail _ h ih => exact (readText_of_blanksInserted h).trans ih

theorem read_spaced_difference : ∃ s t : String, s = "X-2=0" ∧ t = " X \t-\n2 = 0\r" ∧
    Relation.ReflTransGen BlanksInserted s.toList t.toList ∧ read t = read s := by
  have h₁ : BlanksInserted "X-2=0".toList " X-2=0".toList :=
    .intro [] [' '] "X-2=0".toList (.inl rfl) (by simp [isBlank])
  have h₂ : BlanksInserted " X-2=0".toList " X \t-2=0".toList :=
    .intro " X".toList " \t".toList "-2=0".toList (.inr (.inr (.inr ⟨'-', rfl, rfl⟩)))
      (by simp [isBlank])
  have h₃ : BlanksInserted " X \t-2=0".toList " X \t-\n2=0".toList :=
    .intro " X \t-".toList ['\n'] "2=0".toList (.inr (.inr (.inl ⟨'-', rfl, rfl⟩)))
      (by simp [isBlank])
  have h₄ : BlanksInserted " X \t-\n2=0".toList " X \t-\n2 =0".toList :=
    .intro " X \t-\n2".toList [' '] "=0".toList (.inr (.inr (.inr ⟨'=', rfl, rfl⟩)))
      (by simp [isBlank])
  have h₅ : BlanksInserted " X \t-\n2 =0".toList " X \t-\n2 = 0".toList :=
    .intro " X \t-\n2 =".toList [' '] ['0'] (.inr (.inr (.inl ⟨'=', rfl, rfl⟩))) (by simp [isBlank])
  have h₆ : BlanksInserted " X \t-\n2 = 0".toList " X \t-\n2 = 0\r".toList :=
    .intro " X \t-\n2 = 0".toList ['\r'] [] (.inr (.inl rfl)) (by simp [isBlank])
  have h := ((((Relation.ReflTransGen.single h₁).tail h₂).tail h₃).tail h₄).tail h₅ |>.tail h₆
  exact ⟨_, _, rfl, rfl, h, read_of_blanks_inserted h⟩

end Equation

end PolyEq
