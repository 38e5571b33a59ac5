import PolyEq.Fraction
import PolyEq.Text.Sum
import PolyEq.Proofs.Decimal.RoundTrip

/-! # Texts without special values

A text is clean if neither of the names of infinity and NaN stands in it. Where a text without
letters joins two clean ones, no name can run across it. The texts of finite floats, of integers
and of fractions have no letters.
-/

namespace PolyEq

open Binary64

/-- The names that infinities and NaN are written with do not occur. -/
def Clean (text : List Char) : Prop :=
  ¬ "inf".toList <:+: text ∧ ¬ "NaN".toList <:+: text

instance (text : List Char) : Decidable (Clean text) :=
  inferInstanceAs (Decidable (_ ∧ _))

@[simp] theorem clean_nil : Clean [] := by
  decide

@[simp] theorem clean_cons_iff {c : Char} {l : List Char} : Clean (c :: l) ↔
    (¬ "inf".toList <+: c :: l ∧ ¬ "NaN".toList <+: c :: l) ∧ Clean l := by
  unfold Clean
  rw [List.infix_cons_iff, List.infix_cons_iff]
  tauto

structure Letterless (text : List Char) : Prop where
  ne_nil : text ≠ []
  chars : ∀ c ∈ text, c.isAlpha = false

instance (text : List Char) : Decidable (Letterless text) :=
  decidable_of_iff (text ≠ [] ∧ (text.all fun c => !c.isAlpha) = true)
    ⟨fun h => ⟨h.1, by simpa using h.2⟩, fun h => ⟨h.ne_nil, by simpa using h.chars⟩⟩

variable {l m p v : List Char} {x : Float} {c : Char}

theorem isAlpha_of_isDigit (h : c.isDigit = true) : c.isAlpha = false := by
  simp only [Char.isDigit, Char.isAlpha, Char.isUpper, Char.isLower, Bool.and_eq_true,
    decide_eq_true_eq, Bool.or_eq_false_iff, Bool.and_eq_false_iff, decide_eq_false_iff_not,
    ge_iff_le, UInt32.le_iff_toNat_le] at h ⊢
  simp at h ⊢
  omega

theorem not_infix_append_of_last (hl : ¬ p <:+: l) (hm : ¬ p <:+: m)
    (h : ∀ c ∈ l.getLast?, c ∉ p) : ¬ p <:+: l ++ m := by
  rw [List.infix_append_iff]
  rintro (hi | hi | ⟨q, r, rfl, ⟨k, rfl⟩, hr⟩)
  · exact hl hi
  · exact hm hi
  · rcases q.eq_nil_or_concat' with rfl | ⟨q, c, rfl⟩
    · exact hm hr.isInfix
    · exact h c (by simp) (by simp)

theorem not_infix_append_of_head (hl : ¬ p <:+: l) (hm : ¬ p <:+: m)
    (h : ∀ c ∈ m.head?, c ∉ p) : ¬ p <:+: l ++ m := by
  rw [List.infix_append_iff]
  rintro (hi | hi | ⟨q, r, rfl, hq, ⟨k, rfl⟩⟩)
  · exact hl hi
  · exact hm hi
  · cases r with
    | nil => exact hl (by simpa using hq.isInfix)
    | cons c r => exact h c (by simp) (by simp)

theorem notMem_of_not_isAlpha (h : c.isAlpha = false) : c ∉ "inf".toList ∧ c ∉ "NaN".toList := by
  constructor <;> intro hc <;> simp at hc <;> rcases hc with rfl | rfl | rfl <;> revert h <;> decide

namespace Clean

theorem append_of_last (hl : Clean l) (hm : Clean m) (h : ∀ c ∈ l.getLast?, c.isAlpha = false) :
    Clean (l ++ m) :=
  ⟨not_infix_append_of_last hl.1 hm.1 fun c hc => (notMem_of_not_isAlpha (h c hc)).1,
    not_infix_append_of_last hl.2 hm.2 fun c hc => (notMem_of_not_isAlpha (h c hc)).2⟩

theorem append_of_head (hl : Clean l) (hm : Clean m) (h : ∀ c ∈ m.head?, c.isAlpha = false) :
    Clean (l ++ m) :=
  ⟨not_infix_append_of_head hl.1 hm.1 fun c hc => (notMem_of_not_isAlpha (h c hc)).1,
    not_infix_append_of_head hl.2 hm.2 fun c hc => (notMem_of_not_isAlpha (h c hc)).2⟩

end Clean

namespace Letterless

theorem clean (h : Letterless v) : Clean v := by
  constructor
  · exact fun hi => absurd (h.chars 'i' (hi.subset (by decide))) (by decide)
  · exact fun hi => absurd (h.chars 'N' (hi.subset (by decide))) (by decide)

theorem append (hl : Letterless l) (hm : ∀ c ∈ m, c.isAlpha = false) : Letterless (l ++ m) :=
  ⟨by simp [hl.ne_nil], fun c hc => (List.mem_append.mp hc).elim (hl.chars c) (hm c)⟩

theorem last (h : Letterless v) : ∀ c ∈ (l ++ v).getLast?, c.isAlpha = false := by
  intro c hc
  rw [List.getLast?_append_of_ne_nil _ h.ne_nil] at hc
  exact h.chars c (List.mem_of_getLast? hc)

end Letterless

@[simp] theorem letterless_cons_iff :
    Letterless (c :: l) ↔ c.isAlpha = false ∧ ∀ d ∈ l, d.isAlpha = false :=
  ⟨fun h => List.forall_mem_cons.mp h.chars,
    fun h => ⟨List.cons_ne_nil _ _, List.forall_mem_cons.mpr h⟩⟩

theorem Clean.insert (hl : Clean l) (hv : Letterless v) (hm : Clean m) : Clean (l ++ v ++ m) :=
  (hl.append_of_head hv.clean fun c hc => hv.chars c (List.mem_of_head? hc)).append_of_last hm
    hv.last

theorem Clean.concat (hl : Clean l) (hv : Letterless v) : Clean (l ++ v) :=
  hl.append_of_head hv.clean fun c hc => hv.chars c (List.mem_of_head? hc)

theorem letterless_of_digits (h : l ≠ []) (hl : ∀ c ∈ l, c.isDigit = true) : Letterless l :=
  ⟨h, fun c hc => isAlpha_of_isDigit (hl c hc)⟩

theorem letterless_digits (n : ℕ) : Letterless (Nat.toDigits 10 n) :=
  letterless_of_digits Nat.toDigits_ne_nil fun _ hc => isDigit_of_mem_digits hc

theorem letterless_signed (s : Float.Model.UnpackedFloat.Sign) (h : Letterless l) :
    Letterless (Display.signed s l) := by
  cases s with
  | positive => exact h
  | negative => exact letterless_cons_iff.mpr ⟨by decide, h.chars⟩

theorem letterless_integerText (n : ℤ) : Letterless (integerText n) := by
  unfold integerText
  split_ifs
  · exact letterless_cons_iff.mpr ⟨by decide, (letterless_digits _).chars⟩
  · exact letterless_digits _

theorem toList_toString_int (n : ℤ) : (toString n).toList = integerText n := by
  rw [Int.toString_eq_repr, integerText]
  cases n with
  | ofNat m =>
    have hm : ¬ Int.ofNat m < 0 := (Int.natCast_nonneg m).not_gt
    rw [Int.repr, Nat.toList_repr, if_neg hm]
    rfl
  | negSucc m =>
    rw [Int.repr, String.toList_append, Nat.toList_repr, if_pos (Int.negSucc_lt_zero m)]
    rfl

theorem Fraction.letterless_text (q : ℚ) : Letterless (Fraction.text q) := by
  unfold Fraction.text
  split_ifs
  · exact letterless_integerText _
  · exact (letterless_integerText _).append
      (letterless_cons_iff.mpr ⟨by decide, (letterless_digits _).chars⟩).chars

theorem IsPlain.letterless (h : IsPlain l) : Letterless l := by
  refine ⟨h.ne_nil, fun c hc => ?_⟩
  rcases h.chars c hc with hd | rfl
  · exact isAlpha_of_isDigit hd
  · decide

namespace Display

theorem letterless_numberText (hx : x.isFinite = true) : Letterless (numberText x) := by
  rw [numberText_eq hx]
  exact letterless_signed _ (Decimal.isPlain_text _).letterless

theorem letterless_collapsedText (hx : x.isFinite = true) : Letterless (collapsedText x) := by
  unfold collapsedText
  cases toInteger? x with
  | some n => exact letterless_integerText n
  | none => exact letterless_numberText hx

end Display

theorem exists_laterSummand (hv : Letterless v) (m : List Char) :
    ∃ w, Letterless w ∧ laterSummand (v ++ m) = w ++ m := by
  obtain ⟨c, v, rfl⟩ := List.exists_cons_of_ne_nil hv.ne_nil
  obtain ⟨hc, hv'⟩ := List.forall_mem_cons.mp hv.chars
  by_cases h : c = '-'
  · subst h
    exact ⟨" - ".toList ++ v, .append (by decide) hv', by simp [laterSummand]⟩
  · refine ⟨" + ".toList ++ (c :: v), .append (by decide) hv.chars, ?_⟩
    unfold laterSummand
    split
    · next heq => exact absurd (List.cons.inj heq).1 h
    · simp

end PolyEq
