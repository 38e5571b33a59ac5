import PolyEq.Equation.Form
import PolyEq.Proofs.Text.Blanks
import PolyEq.Proofs.Text.Sum

/-! # Terms are read back from their text

A term is written as its sign, the shortest decimal of its coefficient and its power of the
unknown. Without the blanks this is one of three of the shapes, and each splits back into the
same parts.
-/

namespace PolyEq

open Binary64

variable {b : Bool} {c : Char} {l m : List Char}

namespace Spacing

theorem isBlank_of_isDigit (h : c.isDigit = true) : isBlank c = false := by
  simp only [isBlank, Bool.or_eq_false_iff, beq_eq_false_iff_ne]
  exact ⟨⟨⟨ne_of_isDigit h rfl, ne_of_isDigit h rfl⟩, ne_of_isDigit h rfl⟩, ne_of_isDigit h rfl⟩

theorem isOperator_of_isDigit (h : c.isDigit = true) : isOperator c = false := by
  simp only [isOperator, Bool.or_eq_false_iff, beq_eq_false_iff_ne]
  exact ⟨⟨⟨ne_of_isDigit h rfl, ne_of_isDigit h rfl⟩, ne_of_isDigit h rfl⟩, ne_of_isDigit h rfl⟩

theorem tightenAfter_append (h : ∀ c ∈ l, isBlank c = false ∧ isOperator c = false)
    (h0 : l ≠ []) (m : List Char) :
    tightenAfter b (l ++ m) = l ++ tightenAfter false m := by
  induction l generalizing b with
  | nil => exact absurd rfl h0
  | cons c l ih =>
    obtain ⟨hb, ho⟩ := h c (by simp)
    rw [List.cons_append, tightenAfter_cons hb, ho]
    by_cases hl : l = []
    · rw [hl]
      rfl
    · simp [ih (fun d hd => h d (by simp [hd])) hl]

end Spacing

namespace IsPlain

theorem tightenAfter (h : IsPlain l) (m : List Char) :
    Spacing.tightenAfter b (l ++ m) = l ++ Spacing.tightenAfter false m := by
  refine Spacing.tightenAfter_append (fun c hc => ?_) h.ne_nil m
  rcases h.chars c hc with hd | rfl
  · exact ⟨Spacing.isBlank_of_isDigit hd, Spacing.isOperator_of_isDigit hd⟩
  · decide

theorem ne_of_mem (h : IsPlain l) (hc : c ∈ l) {d : Char} (hd : d.isDigit = false)
    (hp : d ≠ '.') : c ≠ d := by
  rcases h.chars c hc with hc | rfl
  · exact ne_of_isDigit hc hd
  · exact hp.symm

theorem isUnsigned_append (h : IsPlain l) (hm : ∀ c ∈ m, c ≠ '+' ∧ c ≠ '-' ∧ c ≠ '=')
    (hl : ∀ c ∈ m.getLast?, Spacing.isOperator c = false ∧ isWhiteSpace c = false) :
    IsUnsigned (l ++ m) := by
  refine ⟨fun c hc => ?_, ?_, forall_getLast?_append (fun c hc => ?_) hl⟩
  · rcases List.mem_append.mp hc with hc | hc
    · exact ⟨h.ne_of_mem hc rfl (by decide), h.ne_of_mem hc rfl (by decide),
        h.ne_of_mem hc rfl (by decide)⟩
    · exact hm c hc
  · obtain ⟨c, later, rfl, hc⟩ := h.head
    exact ⟨c, later ++ m, rfl, hc⟩
  · obtain ⟨earlier, d, rfl, hd⟩ := h.last
    obtain rfl : d = c := by simpa using hc
    exact ⟨Spacing.isOperator_of_isDigit hd, isWhiteSpace_of_isDigit hd⟩

end IsPlain

namespace Term

variable {t : Term}

def numeral (t : Term) : List Char :=
  (Decimal.shortest t.coefficient).text

def power (times : List Char) (t : Term) : List Char :=
  if t.exponent = 0 then []
  else if t.exponent = 1 then times ++ [unknown]
  else times ++ unknown :: '^' :: Nat.toDigits 10 t.exponent.toNat

theorem isPlain_numeral (t : Term) : IsPlain t.numeral :=
  Decimal.isPlain_text _

theorem isPlain_exponent (t : Term) : IsPlain (Nat.toDigits 10 t.exponent.toNat) :=
  isPlain_of_digits Nat.toDigits_ne_nil fun _ hc => isDigit_of_mem_digits hc

theorem mem_power {times : List Char} (h : c ∈ t.power times) :
    c ∈ times ∨ c = 'X' ∨ c = '^' ∨ c.isDigit = true := by
  unfold power at h
  split_ifs at h
  · simp at h
  · simp only [List.mem_append, List.mem_singleton] at h
    exact h.imp_right .inl
  · simp only [List.mem_append, List.mem_cons] at h
    exact h.imp_right (.imp_right (.imp_right isDigit_of_mem_digits))

theorem getLast?_power {times : List Char} :
    ∀ c ∈ (t.power times).getLast?, Spacing.isOperator c = false ∧ isWhiteSpace c = false := by
  unfold power
  split_ifs
  · simp
  · intro c hc
    obtain rfl : unknown = c := by simpa using hc
    decide
  · obtain ⟨earlier, d, h, hd⟩ := t.isPlain_exponent.last
    have hl : times ++ unknown :: '^' :: (earlier ++ [d]) =
        (times ++ unknown :: '^' :: earlier) ++ [d] := by simp
    rw [h, hl, List.getLast?_concat]
    rintro c ⟨rfl⟩
    exact ⟨Spacing.isOperator_of_isDigit hd, isWhiteSpace_of_isDigit hd⟩

theorem isUnsigned_power {times : List Char} (h : ∀ c ∈ times, c = ' ' ∨ c = '*') (t : Term) :
    IsUnsigned (t.numeral ++ t.power times) := by
  refine t.isPlain_numeral.isUnsigned_append (fun c hc => ?_) getLast?_power
  rcases mem_power hc with hc | rfl | rfl | hc
  · rcases h c hc with rfl | rfl <;> decide
  · decide
  · decide
  · exact ⟨ne_of_isDigit hc rfl, ne_of_isDigit hc rfl, ne_of_isDigit hc rfl⟩

theorem tightenAfter_power (t : Term) (m : List Char) :
    Spacing.tightenAfter false (t.power " * ".toList ++ m) =
      t.power ['*'] ++ Spacing.tightenAfter false m := by
  unfold power
  split_ifs
  · rfl
  · simp [Spacing.tightenAfter, Spacing.isBlank, Spacing.isOperator, Spacing.operatorAhead, unknown]
  · simp [Spacing.tightenAfter, Spacing.isBlank, Spacing.isOperator, Spacing.operatorAhead, unknown,
      t.isPlain_exponent.tightenAfter]

def summand (t : Term) : Summand where
  sign := Display.sign t.coefficient
  written := t.numeral ++ t.power " * ".toList
  body := t.numeral ++ t.power ['*']
  isUnsigned_written := isUnsigned_power (by simp) t
  isUnsigned_body := isUnsigned_power (by simp) t
  tightenAfter_written b m := by
    rw [List.append_assoc, t.isPlain_numeral.tightenAfter, t.tightenAfter_power, List.append_assoc]

theorem text_summand (h : t.coefficient.isFinite = true) : t.summand.text = t.text := by
  have hn := Display.numberText_eq h
  simp only [Summand.text, summand, Term.text, hn, power]
  split_ifs <;> cases Display.sign t.coefficient <;> simp [Display.signed, numeral]

def shape (t : Term) : Shape :=
  if t.exponent = 0 then .constant t.numeral
  else if t.exponent = 1 then .multiple (some t.numeral)
  else .multiplePower (some t.numeral) (Nat.toDigits 10 t.exponent.toNat)

theorem isConstant_numeral (t : Term) : Shape.isConstant t.numeral = true := by
  have h := t.isPlain_numeral
  obtain ⟨c, later, hl, hc⟩ := h.head
  have hall : t.numeral.all (fun c => c.isDigit || c == '.') = true := by
    simpa using h.chars
  have hany : t.numeral.any Char.isDigit = true := by
    simp [hl, hc]
  simp [Shape.isConstant, hall, hany, h.points]

theorem takeWhile_numeral (t : Term) (m : List Char) :
    (t.numeral ++ '*' :: m).takeWhile (· ≠ '*') = t.numeral := by
  have h (c) (hc : c ∈ t.numeral) : decide (c ≠ '*') = true :=
    decide_eq_true (t.isPlain_numeral.ne_of_mem hc rfl (by decide))
  simp only [List.takeWhile_append_of_pos h]
  simp

theorem dropWhile_numeral (t : Term) (m : List Char) :
    (t.numeral ++ '*' :: m).dropWhile (· ≠ '*') = '*' :: m := by
  have h (c) (hc : c ∈ t.numeral) : decide (c ≠ '*') = true :=
    decide_eq_true (t.isPlain_numeral.ne_of_mem hc rfl (by decide))
  simp only [List.dropWhile_append_of_pos h]
  simp

theorem classify?_product (t : Term) (m : List Char) :
    Shape.classify? (t.numeral ++ '*' :: m) =
      (Shape.product? (t.numeral ++ '*' :: m)).or (Shape.juxtaposed? (t.numeral ++ '*' :: m)) := by
  have hc : Shape.isConstant (t.numeral ++ '*' :: m) = false := by
    simp [Shape.isConstant]
  obtain ⟨c, later, h, hd⟩ := t.isPlain_numeral.head
  have hx : c ≠ 'X' := ne_of_isDigit hd rfl
  unfold Shape.classify?
  rw [hc, if_neg Bool.false_ne_true, h, List.cons_append]
  split
  · next heq => simp_all
  · next heq => simp_all
  · rfl

theorem classify?_body (t : Term) : Shape.classify? t.summand.body = some t.shape := by
  simp only [summand, power, shape]
  split_ifs
  · unfold Shape.classify?
    rw [List.append_nil, if_pos t.isConstant_numeral]
  · rw [List.singleton_append, classify?_product, Shape.product?, takeWhile_numeral,
      dropWhile_numeral]
    rfl
  · rw [List.singleton_append, classify?_product, Shape.product?, takeWhile_numeral,
      dropWhile_numeral]
    rfl

theorem readCoefficient_numeral (h : t.coefficient.isFinite = true) :
    Shape.readCoefficient t.numeral = .ok t.coefficient.abs := by
  have hf : t.coefficient.abs.isFinite = true := by rwa [Binary64.isFinite_abs]
  rw [Shape.readCoefficient, t.isPlain_numeral.trim, numeral, Numeral.readFloat_text,
    Decimal.toFloat_shortest h]
  exact if_pos hf

theorem readExponent_digits (t : Term) :
    Shape.readExponent (Nat.toDigits 10 t.exponent.toNat) = .ok t.exponent := by
  simp [Shape.readExponent, t.isPlain_exponent.trim, Numeral.readCount_toDigits]

theorem readUnsigned_body (h : t.coefficient.isFinite = true) :
    readUnsigned t.summand.body = .ok ⟨t.coefficient.abs, t.exponent⟩ := by
  have he : t.shape.evaluate = .ok ⟨t.coefficient.abs, t.exponent⟩ := by
    unfold shape
    split_ifs with h0 h1
    · simp only [Shape.evaluate, readCoefficient_numeral h, h0]
      rfl
    · simp only [Shape.evaluate, Shape.readImplied, readCoefficient_numeral h, h1]
      rfl
    · simp only [Shape.evaluate, Shape.readImplied, readCoefficient_numeral h, readExponent_digits]
      rfl
  rw [readUnsigned, classify?_body]
  simp only [he]

theorem read_positive (hl : IsUnsigned l) : read l = (readUnsigned l).map some := by
  obtain ⟨c, later, h, -⟩ := hl.head
  unfold read
  split
  · simp at h
  · exact absurd rfl (hl.ne_minus _)
  · exact absurd rfl (hl.ne_minus _)
  · rfl

theorem read_negative (hl : IsUnsigned l) :
    read ('-' :: l) = (readUnsigned l).map fun t => some t.negate := by
  obtain ⟨c, later, h, -⟩ := hl.head
  rw [h]
  rfl

theorem read_fragment (h : Display.Legible t.coefficient) :
    read t.summand.fragment = .ok (some t) := by
  have hr := readUnsigned_body h.isFinite
  have ha := h.abs_eq
  have hf : t.summand.fragment = Display.signed (Display.sign t.coefficient) t.summand.body := rfl
  rw [hf]
  cases hs : Display.sign t.coefficient with
  | positive =>
    simp only [hs] at ha
    simp only [Display.signed, read_positive t.summand.isUnsigned_body, hr, ha]
    rfl
  | negative =>
    simp only [hs] at ha
    simp only [Display.signed, read_negative t.summand.isUnsigned_body, hr, ha]
    simp only [Except.map, negate, float_neg_neg]

end Term

end PolyEq
