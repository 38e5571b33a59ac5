import PolyEq.Proofs.Decimal.RoundTrip
import PolyEq.Term.Reading
import Mathlib.Data.List.TakeWhile

/-! # What reading a term can give

A term that is read has a finite coefficient. White space has no shape, so it is never read as a
term.
-/

namespace PolyEq

open Binary64

variable {c : Char} {x : Float} {l : List Char} {t : Term}

theorem bind_eq_ok {α β ε : Type} {first : Except ε α} {next : α → Except ε β} {b : β} :
    first >>= next = .ok b ↔ ∃ a, first = .ok a ∧ next a = .ok b := by
  cases first with
  | error fault => simp [bind, Except.bind]
  | ok a => simp [bind, Except.bind]

theorem bind_eq_error {α β ε : Type} {first : Except ε α} {next : α → Except ε β} {fault : ε} :
    first >>= next = .error fault ↔
      first = .error fault ∨ ∃ a, first = .ok a ∧ next a = .error fault := by
  cases first with
  | error fault => simp [bind, Except.bind]
  | ok a => simp [bind, Except.bind]

theorem pure_eq_ok {α ε : Type} {a b : α} : (pure a : Except ε α) = .ok b ↔ a = b := by
  simp [pure, Except.pure]

theorem map_eq_ok {α β ε : Type} {f : α → β} {x : Except ε α} {b : β} :
    x.map f = .ok b ↔ ∃ a, x = .ok a ∧ f a = b := by
  cases x <;> simp [Except.map]

theorem exists_ok_of_any {ε α : Type} {x : Except ε α} {p : α → Bool}
    (h : x.toOption.any p = true) : ∃ a, x = .ok a ∧ p a = true := by
  cases x with
  | error fault => simp [Except.toOption] at h
  | ok a => exact ⟨a, rfl, by simpa [Except.toOption] using h⟩

namespace Term

theorem read_body (h0 : l ≠ []) (hl : ∀ c ∈ l, c ≠ '+' ∧ c ≠ '-') :
    read l = (readUnsigned l).map some := by
  unfold read
  split
  · exact absurd rfl h0
  · exact absurd rfl (hl '-' (by simp)).2
  · exact absurd rfl (hl '-' (by simp)).2
  · rfl

theorem read_minus_body (h0 : l ≠ []) :
    read ('-' :: l) = (readUnsigned l).map fun t => some t.negate := by
  obtain ⟨c, l, rfl⟩ := List.exists_cons_of_ne_nil h0
  rfl

namespace Shape

theorem splitPower?_cons (hc : c ≠ 'X') :
    splitPower? (c :: l) = (splitPower? l).map fun (before, n) => (c :: before, n) := by
  rw [splitPower?]
  exact fun _ h _ => hc h

theorem splitPower?_eq_none (h : 'X' ∉ l) : splitPower? l = none := by
  induction l with
  | nil => rfl
  | cons c l ih =>
    obtain ⟨hc, hl⟩ := not_or.mp (mt List.mem_cons.mpr h)
    rw [splitPower?_cons (Ne.symm hc), ih hl]
    rfl

theorem product?_eq_none (h : '*' ∉ l) : product? l = none := by
  have hdrop : l.dropWhile (· ≠ '*') = [] := by
    refine List.dropWhile_eq_nil_iff.mpr fun c hc => decide_eq_true ?_
    rintro rfl
    exact h hc
  unfold product?
  simp only [hdrop]

theorem classify?_blank (h : l.all isWhiteSpace = true) : classify? l = none := by
  rw [List.all_eq_true] at h
  have hX : 'X' ∉ l := fun hX => absurd (h _ hX) (by decide)
  have hstar : '*' ∉ l := fun hs => absurd (h _ hs) (by decide)
  have hdigit : l.any Char.isDigit = false := by
    refine List.any_eq_false.mpr fun c hc hd => ?_
    exact Bool.false_ne_true ((isWhiteSpace_of_isDigit hd).symm.trans (h c hc))
  have hlast : l.getLast? ≠ some 'X' := fun hl => hX (List.mem_of_getLast? hl)
  unfold classify?
  rw [isConstant, hdigit, Bool.and_false, if_neg Bool.false_ne_true]
  split
  · simp at hX
  · simp at hX
  · simp [product?_eq_none hstar, juxtaposed?, hlast, splitPower?_eq_none hX]

theorem isFinite_of_readCoefficient (h : readCoefficient l = .ok x) : x.isFinite = true := by
  simp only [readCoefficient, bind_eq_ok] at h
  obtain ⟨y, -, h⟩ := h
  split_ifs at h with hy
  cases h
  exact hy

theorem isFinite_of_readImplied {l : Option (List Char)} (h : readImplied l = .ok x) :
    x.isFinite = true := by
  cases l with
  | none =>
    cases h
    exact denotes_one.isFinite
  | some l => exact isFinite_of_readCoefficient h

theorem isFinite_of_evaluate {shape : Shape} (h : shape.evaluate = .ok t) :
    t.coefficient.isFinite = true := by
  cases shape with
  | unknown =>
    cases h
    exact denotes_one.isFinite
  | constant l =>
    simp only [evaluate, bind_eq_ok, pure_eq_ok] at h
    obtain ⟨x, hx, rfl⟩ := h
    exact isFinite_of_readCoefficient hx
  | power n =>
    simp only [evaluate, bind_eq_ok, pure_eq_ok] at h
    obtain ⟨k, -, rfl⟩ := h
    exact denotes_one.isFinite
  | multiple l =>
    simp only [evaluate, bind_eq_ok, pure_eq_ok] at h
    obtain ⟨x, hx, rfl⟩ := h
    exact isFinite_of_readImplied hx
  | multiplePower l n =>
    simp only [evaluate, bind_eq_ok, pure_eq_ok] at h
    obtain ⟨x, hx, k, -, rfl⟩ := h
    exact isFinite_of_readImplied hx

end Shape

theorem isFinite_of_readUnsigned (h : readUnsigned l = .ok t) : t.coefficient.isFinite = true := by
  unfold readUnsigned at h
  split at h
  · cases h
  · split at h
    · next heq => cases h; exact Shape.isFinite_of_evaluate heq
    · cases h

theorem not_blank_of_readUnsigned (h : readUnsigned l = .ok t) : l.all isWhiteSpace = false := by
  rw [← Bool.not_eq_true]
  intro hl
  rw [readUnsigned, Shape.classify?_blank hl] at h
  cases h

end Term

end PolyEq
