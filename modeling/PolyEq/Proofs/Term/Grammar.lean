import PolyEq.Proofs.Decimal.Literal

/-! # The grammar of terms

A term without its sign is written in one of seven ways. Texts that are written in two of them do
not exist, and the shape of a text is that of the way in which it is written. So reading a term
finds the way if there is one, and names the whole text if there is none.
-/

namespace PolyEq

namespace Term

open Shape

inductive Spelling where
  | constant (digits : List Char)
  | unknown
  | power (exponent : List Char)
  | product (coefficient : List Char)
  | juxtaposed (coefficient : List Char)
  | productPower (coefficient exponent : List Char)
  | juxtaposedPower (coefficient exponent : List Char)

namespace Spelling

def text : Spelling → List Char
  | constant digits => digits
  | unknown => ['X']
  | power exponent => 'X' :: '^' :: exponent
  | product coefficient => coefficient ++ ['*', 'X']
  | juxtaposed coefficient => coefficient ++ ['X']
  | productPower coefficient exponent => coefficient ++ '*' :: 'X' :: '^' :: exponent
  | juxtaposedPower coefficient exponent => coefficient ++ 'X' :: '^' :: exponent

/-- The shape of the text. Only the asterisk leaves no trace in it. -/
def shape : Spelling → Shape
  | constant digits => .constant digits
  | unknown => .unknown
  | power exponent => .power exponent
  | product coefficient | juxtaposed coefficient => .multiple (some coefficient)
  | productPower coefficient exponent | juxtaposedPower coefficient exponent =>
    .multiplePower (some coefficient) exponent

end Spelling

/-- Digits with at most one point, and at least one digit. -/
structure IsDigits (text : List Char) : Prop where
  chars : ∀ c ∈ text, c.isDigit = true ∨ c = '.'
  points : text.count '.' ≤ 1
  exists_digit : ∃ c ∈ text, c.isDigit = true

/-- A float literal of a finite value, perhaps between white space. -/
def IsCoefficient (text : List Char) (x : Float) : Prop :=
  Numeral.readFloat (trim text) = .ok x ∧ x.isFinite = true

def IsExponent (text : List Char) (n : UInt64) : Prop :=
  Numeral.readCount (trim text) = .ok n

inductive Spelling.Spells : Spelling → Term → Prop where

  | constant {l : List Char} {x : Float} : IsDigits l → Numeral.readFloat l = .ok x →
      x.isFinite = true → Spells (.constant l) ⟨x, 0⟩

  | unknown : Spells .unknown ⟨1, 1⟩

  | power {n : List Char} {k : UInt64} : IsExponent n k → Spells (.power n) ⟨1, k⟩

  | product {c : List Char} {x : Float} : IsCoefficient c x → Spells (.product c) ⟨x, 1⟩

  | juxtaposed {c : List Char} {x : Float} : IsCoefficient c x → Spells (.juxtaposed c) ⟨x, 1⟩

  | productPower {c n : List Char} {x : Float} {k : UInt64} : IsCoefficient c x →
      IsExponent n k → Spells (.productPower c n) ⟨x, k⟩

  | juxtaposedPower {c n : List Char} {x : Float} {k : UInt64} : IsCoefficient c x →
      IsExponent n k → Spells (.juxtaposedPower c n) ⟨x, k⟩

variable {l m c n : List Char} {d : Char} {x : Float} {k : UInt64} {t u : Term} {σ : Shape}
variable {s s' : Spelling}

theorem isConstant_iff : isConstant l = true ↔ IsDigits l := by
  simp only [isConstant, Bool.and_eq_true, List.all_eq_true, Bool.or_eq_true, beq_iff_eq,
    decide_eq_true_eq, List.any_eq_true, and_assoc]
  constructor
  · rintro ⟨h, hp, hd⟩
    exact ⟨h, hp, hd⟩
  · intro h
    exact ⟨h.chars, h.points, h.exists_digit⟩

theorem isConstant_eq_false (h : 'X' ∈ l) : isConstant l = false := by
  rw [← Bool.not_eq_true, isConstant_iff]
  intro hl
  exact absurd (hl.chars 'X' h) (by decide)

theorem readCoefficient_eq_ok_iff : readCoefficient l = .ok x ↔ IsCoefficient l x := by
  simp only [readCoefficient, bind_eq_ok]
  constructor
  · rintro ⟨y, hy, h⟩
    split_ifs at h with hf
    cases h
    exact ⟨hy, hf⟩
  · rintro ⟨hx, hf⟩
    exact ⟨x, hx, if_pos hf⟩

theorem IsCoefficient.unmarked (h : IsCoefficient l x) : Unmarked l :=
  (Numeral.unmarked_of_readFloat h.1).of_trim

theorem IsExponent.unmarked (h : IsExponent l k) : Unmarked l :=
  (Numeral.unmarked_of_readCount h).of_trim

theorem IsCoefficient.ne_nil (h : IsCoefficient l x) : l ≠ [] := by
  rintro rfl
  cases h.1

theorem IsDigits.trim (h : IsDigits l) : trim l = l := by
  have hw (c) (hc : c ∈ l) : isWhiteSpace c = false := by
    rcases h.chars c hc with hd | rfl
    · exact isWhiteSpace_of_isDigit hd
    · decide
  have ht : IsTrimmed l :=
    ⟨fun c hc => hw c (List.mem_of_head? hc), fun c hc => hw c (List.mem_of_getLast? hc)⟩
  exact ht.trim_eq

theorem evaluate_constant_iff :
    (Shape.constant l).evaluate = .ok t ↔ ∃ x, IsCoefficient l x ∧ ⟨x, 0⟩ = t := by
  simp only [evaluate, bind_eq_ok, pure_eq_ok, readCoefficient_eq_ok_iff]

theorem evaluate_power_iff :
    (Shape.power n).evaluate = .ok t ↔ ∃ k, IsExponent n k ∧ ⟨1, k⟩ = t := by
  simp only [evaluate, bind_eq_ok, pure_eq_ok]
  rfl

theorem evaluate_multiple_iff :
    (Shape.multiple (some c)).evaluate = .ok t ↔ ∃ x, IsCoefficient c x ∧ ⟨x, 1⟩ = t := by
  simp only [evaluate, readImplied, bind_eq_ok, pure_eq_ok, readCoefficient_eq_ok_iff]

theorem evaluate_multiplePower_iff : (Shape.multiplePower (some c) n).evaluate = .ok t ↔
    ∃ x, IsCoefficient c x ∧ ∃ k, IsExponent n k ∧ ⟨x, k⟩ = t := by
  simp only [evaluate, readImplied, bind_eq_ok, pure_eq_ok, readCoefficient_eq_ok_iff]
  rfl

theorem Spelling.Spells.evaluate (h : s.Spells t) : s.shape.evaluate = .ok t := by
  cases h with
  | constant hl hx hf => exact evaluate_constant_iff.mpr ⟨_, ⟨hl.trim.symm ▸ hx, hf⟩, rfl⟩
  | unknown => rfl
  | power hk => exact evaluate_power_iff.mpr ⟨_, hk, rfl⟩
  | product hx | juxtaposed hx => exact evaluate_multiple_iff.mpr ⟨_, hx, rfl⟩
  | productPower hx hk | juxtaposedPower hx hk =>
    exact evaluate_multiplePower_iff.mpr ⟨_, hx, _, hk, rfl⟩

theorem Spelling.spells_of_evaluate (h : s.shape.evaluate = .ok t)
    (hd : ∀ d, s = .constant d → IsDigits d) : s.Spells t := by
  cases s with
  | constant l =>
    obtain ⟨x, ⟨hx, hf⟩, rfl⟩ := evaluate_constant_iff.mp h
    have hl := hd l rfl
    rw [hl.trim] at hx
    exact .constant hl hx hf
  | unknown =>
    cases h
    exact .unknown
  | power n =>
    obtain ⟨k, hk, rfl⟩ := evaluate_power_iff.mp h
    exact .power hk
  | product c =>
    obtain ⟨x, hx, rfl⟩ := evaluate_multiple_iff.mp h
    exact .product hx
  | juxtaposed c =>
    obtain ⟨x, hx, rfl⟩ := evaluate_multiple_iff.mp h
    exact .juxtaposed hx
  | productPower c n =>
    obtain ⟨x, hx, k, hk, rfl⟩ := evaluate_multiplePower_iff.mp h
    exact .productPower hx hk
  | juxtaposedPower c n =>
    obtain ⟨x, hx, k, hk, rfl⟩ := evaluate_multiplePower_iff.mp h
    exact .juxtaposedPower hx hk

/-- What stands before the first asterisk is the coefficient of a product. -/
theorem product?_append (h : '*' ∉ c) :
    product? (c ++ '*' :: m) = match m with
      | ['X'] => some (.multiple (some c))
      | 'X' :: '^' :: n => some (.multiplePower (some c) n)
      | _ => none := by
  have hc : ∀ d ∈ c, decide (d ≠ '*') = true := by
    intro d hd
    refine decide_eq_true ?_
    rintro rfl
    exact h hd
  unfold product?
  rw [List.takeWhile_append_of_pos hc, List.dropWhile_append_of_pos hc]
  simp only [List.takeWhile_cons, List.dropWhile_cons, ne_eq, not_true_eq_false, decide_false,
    Bool.false_eq_true, if_false, List.append_nil]
  split <;> simp_all

theorem splitPower?_append (h : 'X' ∉ c) : splitPower? (c ++ 'X' :: '^' :: n) = some (c, n) := by
  induction c with
  | nil => rfl
  | cons d c ih =>
    obtain ⟨hd, hc⟩ := not_or.mp (mt List.mem_cons.mpr h)
    rw [List.cons_append, splitPower?_cons (Ne.symm hd), ih hc]
    rfl

theorem splitPower?_eq_some (h : splitPower? l = some (c, n)) : l = c ++ 'X' :: '^' :: n := by
  induction l generalizing c with
  | nil => cases h
  | cons d l ih =>
    unfold splitPower? at h
    split at h
    · next heq => cases heq
    · next heq =>
      cases heq
      cases h
      rfl
    · next heq =>
      cases heq
      obtain ⟨⟨c', n'⟩, hl, heq⟩ := Option.map_eq_some_iff.mp h
      cases heq
      rw [ih hl]
      rfl

theorem juxtaposed?_append_unknown (h : c ≠ []) :
    juxtaposed? (c ++ ['X']) = some (.multiple (some c)) := by
  simp [juxtaposed?, written?, h]

theorem juxtaposed?_append_power (h : c ≠ []) (hc : 'X' ∉ c) (hn : 'X' ∉ n) :
    juxtaposed? (c ++ 'X' :: '^' :: n) = some (.multiplePower (some c) n) := by
  have hlast : (c ++ 'X' :: '^' :: n).getLast? ≠ some 'X' := by
    rw [List.append_cons, List.getLast?_append_of_ne_nil _ (List.cons_ne_nil '^' n)]
    intro hlast
    simpa [hn] using List.mem_of_getLast? hlast
  rw [juxtaposed?, if_neg hlast, splitPower?_append hc]
  simp [written?, h]

/-- The unknown after a coefficient makes the text a multiple of it, if it has a shape at all. -/
theorem classify?_append (h : IsCoefficient c x) (hX : 'X' ∈ m) :
    classify? (c ++ m) = (product? (c ++ m)).or (juxtaposed? (c ++ m)) := by
  have hne (l : List Char) : c ++ m ≠ 'X' :: l := by
    obtain ⟨d, c, rfl⟩ := List.exists_cons_of_ne_nil h.ne_nil
    intro heq
    exact (h.unmarked d List.mem_cons_self).1 (List.cons.inj heq).1
  unfold classify?
  rw [isConstant_eq_false (List.mem_append_right c hX), if_neg Bool.false_ne_true]
  split
  · next heq => exact absurd heq (hne _)
  · next heq => exact absurd heq (hne _)
  · rfl

/-- Classifying finds the spelling whose numbers can be read: no earlier shape takes its text. -/
theorem Spelling.Spells.classify? (h : s.Spells t) : classify? s.text = some s.shape := by
  cases h with
  | constant hl => exact if_pos (isConstant_iff.mpr hl)
  | unknown => rfl
  | power => rw [text, Shape.classify?, isConstant_eq_false List.mem_cons_self]; rfl
  | product hc | productPower hc hn =>
    rw [text, classify?_append hc (by simp), product?_append hc.unmarked.asterisk_not_mem]
    rfl
  | juxtaposed hc =>
    rw [text, classify?_append hc (by simp),
      product?_eq_none (by simpa using hc.unmarked.asterisk_not_mem), Option.none_or,
      juxtaposed?_append_unknown hc.ne_nil]
    rfl
  | juxtaposedPower hc hn =>
    have hstar := not_or.mpr ⟨hc.unmarked.asterisk_not_mem, hn.unmarked.asterisk_not_mem⟩
    rw [text, classify?_append hc (by simp), product?_eq_none (by simpa using hstar),
      Option.none_or, juxtaposed?_append_power hc.ne_nil hc.unmarked.unknown_not_mem
        hn.unmarked.unknown_not_mem]
    rfl

theorem exists_spelling_of_product? (h : product? l = some σ) :
    ∃ s : Spelling, s.text = l ∧ s.shape = σ ∧ ∀ d, s ≠ .constant d := by
  unfold product? at h
  dsimp only at h
  have hl := List.takeWhile_append_dropWhile (p := (decide <| · ≠ '*')) (l := l)
  split at h
  · next heq =>
    rw [heq] at hl
    cases h
    exact ⟨.product _, hl, rfl, nofun⟩
  · next heq =>
    rw [heq] at hl
    cases h
    exact ⟨.productPower _ _, hl, rfl, nofun⟩
  · cases h

theorem exists_spelling_of_juxtaposed? (h : juxtaposed? l = some σ) (h1 : l ≠ ['X'])
    (h2 : ∀ n, l ≠ 'X' :: '^' :: n) :
    ∃ s : Spelling, s.text = l ∧ s.shape = σ ∧ ∀ d, s ≠ .constant d := by
  unfold juxtaposed? at h
  split_ifs at h with hlast
  · have hl := List.dropLast_append_getLast? _ hlast
    have hc : l.dropLast ≠ [] := by
      intro hc
      rw [hc] at hl
      exact h1 hl.symm
    rw [written?, if_neg hc] at h
    cases h
    exact ⟨.juxtaposed _, hl, rfl, nofun⟩
  · obtain ⟨⟨c, n⟩, hsplit, heq⟩ := Option.map_eq_some_iff.mp h
    have hl := splitPower?_eq_some hsplit
    have hc : c ≠ [] := by
      rintro rfl
      exact h2 n hl
    have hw : written? c = some c := if_neg hc
    simp only [hw] at heq
    cases heq
    exact ⟨.juxtaposedPower c n, hl.symm, rfl, nofun⟩

theorem exists_spelling_of_classify? (h : classify? l = some σ) :
    ∃ s : Spelling, s.text = l ∧ s.shape = σ ∧ ∀ d, s = .constant d → IsDigits d := by
  unfold classify? at h
  split_ifs at h with hdigits
  · cases h
    refine ⟨.constant l, rfl, rfl, ?_⟩
    rintro d ⟨⟩
    exact isConstant_iff.mp hdigits
  · split at h
    · cases h
      exact ⟨.unknown, rfl, rfl, nofun⟩
    · cases h
      exact ⟨.power _, rfl, rfl, nofun⟩
    · next h1 h2 =>
      obtain ⟨s, htext, hshape, hs⟩ : ∃ s : Spelling, s.text = l ∧ s.shape = σ ∧
          ∀ d, s ≠ .constant d := by
        rcases Option.or_eq_some_iff.mp h with h | ⟨-, h⟩
        · exact exists_spelling_of_product? h
        · exact exists_spelling_of_juxtaposed? h h1 h2
      exact ⟨s, htext, hshape, fun d hd => absurd hd (hs d)⟩

theorem readUnsigned_eq_ok_iff :
    readUnsigned l = .ok t ↔ ∃ s : Spelling, s.text = l ∧ s.Spells t := by
  constructor
  · intro h
    unfold readUnsigned at h
    split at h
    · cases h
    · next hl =>
      obtain ⟨s, htext, rfl, hd⟩ := exists_spelling_of_classify? hl
      split at h
      · next heq =>
        cases h
        exact ⟨s, htext, Spelling.spells_of_evaluate heq hd⟩
      · cases h
  · rintro ⟨s, rfl, h⟩
    simp only [readUnsigned, h.classify?, h.evaluate]

/-- Two spellings of one text are the same: only the asterisk could tell apart two of one shape. -/
theorem Spelling.eq_of_shape_eq (htext : s.text = s'.text) (hshape : s.shape = s'.shape) :
    s = s' := by
  cases s <;> cases s' <;> simp_all [text, shape]

def unsignedPart : List Char → List Char
  | '-' :: body => body
  | body => body

/-- The term with the sign that the text begins with. -/
def withSignOf (text : List Char) (t : Term) : Term :=
  if text.head? = some '-' then t.negate else t

theorem read_eq (l : List Char) :
    read l = if unsignedPart l = [] then .ok none
      else (readUnsigned (unsignedPart l)).map fun t => some (t.withSignOf l) := by
  cases l with
  | nil => rfl
  | cons d l =>
    by_cases hd : d = '-'
    · subst hd
      cases l with
      | nil => rfl
      | cons e l => rfl
    · have hbody : unsignedPart (d :: l) = d :: l := by
        unfold unsignedPart
        split
        · next heq => cases heq; exact absurd rfl hd
        · rfl
      have hsign : withSignOf (d :: l) = id := by
        funext t
        simp [withSignOf, hd]
      rw [hbody, hsign, if_neg (List.cons_ne_nil d l)]
      unfold read
      split <;> simp_all

theorem readUnsigned_eq_error (h : ¬∃ t, readUnsigned l = .ok t) :
    (classify? l = none ∧ readUnsigned l = .error (.unknownTerm (.ofList l))) ∨
      ∃ σ cause, classify? l = some σ ∧ σ.evaluate = .error cause ∧
        readUnsigned l = .error (.malformedNumber (.ofList l) cause.message) := by
  unfold readUnsigned at h ⊢
  cases hl : classify? l with
  | none => exact .inl ⟨rfl, by rfl⟩
  | some σ =>
    cases hσ : σ.evaluate with
    | ok t => simp [hl, hσ] at h
    | error cause => exact .inr ⟨σ, cause, rfl, hσ, by simp [hσ]⟩

theorem read_eq_none_iff : read l = .ok none ↔ unsignedPart l = [] := by
  rw [read_eq]
  constructor
  · intro h
    by_contra hl
    rw [if_neg hl, map_eq_ok] at h
    obtain ⟨t, -, ⟨⟩⟩ := h
  · exact fun hl => if_pos hl

theorem read_eq_some_iff : read l = .ok (some t) ↔
    ∃ u, readUnsigned (unsignedPart l) = .ok u ∧ t = u.withSignOf l := by
  rw [read_eq]
  by_cases hl : unsignedPart l = []
  · rw [if_pos hl, hl]
    exact ⟨nofun, fun ⟨u, h, _⟩ => nomatch h⟩
  · rw [if_neg hl, map_eq_ok]
    simp only [Option.some.injEq, eq_comm]

theorem read_eq_error_of_unsigned (hl : unsignedPart l ≠ []) {fault : ReadError}
    (h : readUnsigned (unsignedPart l) = .error fault) : read l = .error fault := by
  rw [read_eq, if_neg hl, h]
  rfl

theorem Spelling.Spells.unique (h : s.Spells t) (h' : s'.Spells u) (htext : s.text = s'.text) :
    s = s' ∧ t = u := by
  have hshape : s.shape = s'.shape := Option.some.inj <| calc
    some s.shape = Shape.classify? s.text := h.classify?.symm
    _ = Shape.classify? s'.text := by rw [htext]
    _ = some s'.shape := h'.classify?
  obtain rfl := Spelling.eq_of_shape_eq htext hshape
  exact ⟨rfl, Except.ok.inj (h.evaluate.symm.trans h'.evaluate)⟩

theorem classify?_ne_none_coefficient :
    classify? l ≠ some (.multiple none) ∧ classify? l ≠ some (.multiplePower none n) := by
  constructor <;> intro h <;> obtain ⟨s, -, hs, -⟩ := exists_spelling_of_classify? h <;>
    cases s <;> cases hs

/-- A text is read as the term that it spells, and no text spells two. A text that spells none is
named in the error, as one without a shape or as one whose numbers cannot be read, and a shape
always has the coefficient it asks for. -/
theorem read_iff_spells (text : List Char) :
    (read text = .ok none ↔ unsignedPart text = []) ∧
      (∀ t, read text = .ok (some t) ↔
        ∃ (s : Spelling) (u : Term), s.text = unsignedPart text ∧ s.Spells u ∧
          t = u.withSignOf text) ∧
      (∀ (s s' : Spelling) (u u' : Term), s.text = unsignedPart text →
        s'.text = unsignedPart text → s.Spells u → s'.Spells u' → s = s' ∧ u = u') ∧
      (∀ (s : Spelling) (u : Term), s.text = unsignedPart text → s.Spells u →
        classify? (unsignedPart text) = some s.shape ∧ s.shape.evaluate = .ok u) ∧
      (unsignedPart text ≠ [] →
        (¬∃ (s : Spelling) (u : Term), s.text = unsignedPart text ∧ s.Spells u) →
        (classify? (unsignedPart text) = none ∧
            read text = .error (.unknownTerm (.ofList (unsignedPart text)))) ∨
          ∃ σ cause, classify? (unsignedPart text) = some σ ∧ σ.evaluate = .error cause ∧
            read text = .error (.malformedNumber (.ofList (unsignedPart text)) cause.message)) ∧
      ∀ n, classify? (unsignedPart text) ≠ some (.multiple none) ∧
        classify? (unsignedPart text) ≠ some (.multiplePower none n) := by
  refine ⟨read_eq_none_iff, fun t => ?_, ?_, ?_, ?_, fun n => classify?_ne_none_coefficient⟩
  · rw [read_eq_some_iff]
    simp only [readUnsigned_eq_ok_iff]
    constructor
    · rintro ⟨u, ⟨s, htext, h⟩, ht⟩
      exact ⟨s, u, htext, h, ht⟩
    · rintro ⟨s, u, htext, h, ht⟩
      exact ⟨u, ⟨s, htext, h⟩, ht⟩
  · intro s s' u u' htext htext' h h'
    exact h.unique h' (htext.trans htext'.symm)
  · intro s u htext h
    exact ⟨htext ▸ h.classify?, h.evaluate⟩
  · intro hbody hnone
    have hfail : ¬∃ t, readUnsigned (unsignedPart text) = .ok t := by
      rintro ⟨t, h⟩
      obtain ⟨s, htext, hs⟩ := readUnsigned_eq_ok_iff.mp h
      exact hnone ⟨s, t, htext, hs⟩
    obtain ⟨hl, h⟩ | ⟨σ, cause, hl, hσ, h⟩ := readUnsigned_eq_error hfail
    · exact .inl ⟨hl, read_eq_error_of_unsigned hbody h⟩
    · exact .inr ⟨σ, cause, hl, hσ, read_eq_error_of_unsigned hbody h⟩

/-- The exponent mark of the coefficient, the plus sign of the exponent and the spaces belong to
the numbers. -/
theorem read_minus_ten_cubes : read "- 1e1 *X^ +3".toList = .ok (some ⟨-10, 3⟩) :=
  ((read_iff_spells "- 1e1 *X^ +3".toList).2.1 _).mpr
    ⟨.productPower " 1e1 ".toList " +3".toList, ⟨10, 3⟩, rfl,
      .productPower ⟨rfl, by decide +kernel⟩ rfl, rfl⟩

end Term

end PolyEq
