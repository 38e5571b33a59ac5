import PolyEq.Decimal.Numeral
import Mathlib

/-! # Decimals as text

The text of a decimal has digits and at most one point, and begins and ends with a digit. Read
as a numeral it gives the float of the decimal.
-/

namespace PolyEq

/-- Digits with at most one point, and a digit at both ends. -/
structure IsPlain (text : List Char) : Prop where
  chars : ∀ c ∈ text, c.isDigit = true ∨ c = '.'
  points : text.count '.' ≤ 1
  head : ∃ c later, text = c :: later ∧ c.isDigit = true
  last : ∃ earlier c, text = earlier ++ [c] ∧ c.isDigit = true

variable {l m : List Char} {c : Char} {n k : ℕ}

theorem isDigit_of_mem_digits (h : c ∈ Nat.toDigits 10 n) : c.isDigit = true :=
  Nat.isDigit_of_mem_toDigits (by decide) (by decide) h

theorem exists_head (h : l ≠ []) (hl : ∀ c ∈ l, c.isDigit = true) :
    ∃ c later, l = c :: later ∧ c.isDigit = true := by
  obtain ⟨c, later, rfl⟩ := List.exists_cons_of_ne_nil h
  exact ⟨c, later, rfl, hl c (by simp)⟩

theorem exists_last (h : l ≠ []) (hl : ∀ c ∈ l, c.isDigit = true) :
    ∃ earlier c, l = earlier ++ [c] ∧ c.isDigit = true :=
  ⟨l.dropLast, l.getLast h, (List.dropLast_append_getLast h).symm, hl _ (List.getLast_mem h)⟩

theorem count_point (hl : ∀ c ∈ l, c.isDigit = true) : l.count '.' = 0 := by
  simp only [List.count_eq_zero]
  intro h
  exact absurd (hl '.' h) (by decide)

theorem isPlain_of_digits (h : l ≠ []) (hl : ∀ c ∈ l, c.isDigit = true) : IsPlain l :=
  ⟨fun c hc => .inl (hl c hc), by simp [count_point hl], exists_head h hl, exists_last h hl⟩

theorem isPlain_of_point (h : l ≠ []) (hl : ∀ c ∈ l, c.isDigit = true) (h' : m ≠ [])
    (hm : ∀ c ∈ m, c.isDigit = true) : IsPlain (l ++ '.' :: m) := by
  refine ⟨?_, ?_, ?_, ?_⟩
  · intro c hc
    simp only [List.mem_append, List.mem_cons] at hc
    rcases hc with hc | rfl | hc
    · exact .inl (hl c hc)
    · exact .inr rfl
    · exact .inl (hm c hc)
  · simp [count_point hl, count_point hm]
  · obtain ⟨c, later, rfl, hc⟩ := exists_head h hl
    exact ⟨c, _, rfl, hc⟩
  · obtain ⟨earlier, c, rfl, hc⟩ := exists_last h' hm
    exact ⟨l ++ '.' :: earlier, c, by simp, hc⟩

def Decimal.fractionDigits (d : Decimal) : List Char :=
  (Nat.toDigits 10 (d.digits % tenPow d.places)).leftpad d.places '0'

namespace Decimal

variable {d : Decimal}

theorem isDigit_of_mem_fractionDigits (h : c ∈ d.fractionDigits) : c.isDigit = true := by
  simp only [fractionDigits, List.leftpad, List.mem_append, List.mem_replicate] at h
  rcases h with ⟨-, rfl⟩ | h
  · decide
  · exact isDigit_of_mem_digits h

theorem length_fractionDigits (h : d.places ≠ 0) : d.fractionDigits.length = d.places := by
  have hlt : d.digits % tenPow d.places < 10 ^ d.places := Nat.mod_lt _ (by simp [tenPow])
  have hle : (Nat.toDigits 10 (d.digits % tenPow d.places)).length ≤ d.places :=
    (Nat.length_toDigits_le_iff (by decide) (Nat.pos_of_ne_zero h)).mpr hlt
  simp [fractionDigits, List.leftpad, hle]

theorem text_of_places_eq (h : d.places = 0) : d.text = Nat.toDigits 10 d.digits := by
  simp [text, h, tenPow]

theorem text_of_places_ne (h : d.places ≠ 0) :
    d.text = Nat.toDigits 10 (d.digits / tenPow d.places) ++ '.' :: d.fractionDigits := by
  simp [text, h, fractionDigits]

theorem isPlain_text (d : Decimal) : IsPlain d.text := by
  by_cases h : d.places = 0
  · simp only [text_of_places_eq h]
    exact isPlain_of_digits Nat.toDigits_ne_nil fun c hc => isDigit_of_mem_digits hc
  · simp only [text_of_places_ne h]
    refine isPlain_of_point Nat.toDigits_ne_nil (fun c hc => isDigit_of_mem_digits hc) ?_
      fun c hc => isDigit_of_mem_fractionDigits hc
    intro hnil
    have := length_fractionDigits h
    simp_all

theorem ofDigitChars_fractionDigits (n : ℕ) (h : d.places ≠ 0) :
    Nat.ofDigitChars 10 d.fractionDigits n = n * tenPow d.places + d.digits % tenPow d.places := by
  have hlen := length_fractionDigits h
  have hpad : Nat.ofDigitChars 10 d.fractionDigits 0 = d.digits % tenPow d.places := by
    simp [fractionDigits, List.leftpad, Nat.ofDigitChars_append]
  simp only [Nat.ofDigitChars_eq_ofDigitChars_zero, hlen, hpad, mul_comm]
  rfl

theorem unsignedDecimal?_text (d : Decimal) : Numeral.unsignedDecimal? d.text = some d.toFloat := by
  by_cases h : d.places = 0
  · have hall (c) (hc : c ∈ Nat.toDigits 10 d.digits) : c.isDigit = true := isDigit_of_mem_digits hc
    have htake : (Nat.toDigits 10 d.digits).takeWhile Char.isDigit = Nat.toDigits 10 d.digits :=
      List.takeWhile_eq_self_iff.mpr hall
    have hdrop : (Nat.toDigits 10 d.digits).dropWhile Char.isDigit = [] :=
      List.dropWhile_eq_nil_iff.mpr hall
    simp only [text_of_places_eq h]
    simp [Numeral.unsignedDecimal?, htake, hdrop, Numeral.exponent?, toFloat, h]
  · have hall (c) (hc : c ∈ Nat.toDigits 10 (d.digits / tenPow d.places)) : c.isDigit = true :=
      isDigit_of_mem_digits hc
    have hfrac (c) (hc : c ∈ d.fractionDigits) : c.isDigit = true :=
      isDigit_of_mem_fractionDigits hc
    have htake : d.fractionDigits.takeWhile Char.isDigit = d.fractionDigits :=
      List.takeWhile_eq_self_iff.mpr hfrac
    have hdrop : d.fractionDigits.dropWhile Char.isDigit = [] :=
      List.dropWhile_eq_nil_iff.mpr hfrac
    have hpoint : Char.isDigit '.' = false := by decide
    simp only [text_of_places_ne h]
    simp only [Numeral.unsignedDecimal?, List.takeWhile_append_of_pos hall,
      List.dropWhile_append_of_pos hall, List.takeWhile_cons, List.dropWhile_cons, hpoint]
    simp [htake, hdrop, Numeral.exponent?, toFloat, length_fractionDigits h,
      Nat.ofDigitChars_append, ofDigitChars_fractionDigits _ h, Nat.div_add_mod']

end Decimal

end PolyEq
