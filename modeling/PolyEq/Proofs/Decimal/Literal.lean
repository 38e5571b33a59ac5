import PolyEq.Decimal.Numeral
import PolyEq.Proofs.Term.Reading
import PolyEq.Proofs.Text.Joining

/-! # The characters of numerals

A float literal is made of letters of the special values, digits, points, signs and exponent marks,
and a count of digits after at most a plus sign. So neither holds the unknown or one of the
operators inside a term, also where white space surrounds it.
-/

namespace PolyEq

variable {l : List Char} {c : Char} {x : Float} {n : UInt64} {k m : ℕ} {i : ℤ}

/-- None of the characters that separate the parts of a term occurs. -/
def Unmarked (text : List Char) : Prop :=
  ∀ c ∈ text, c ≠ 'X' ∧ c ≠ '*' ∧ c ≠ '^'

theorem Unmarked.unknown_not_mem (h : Unmarked l) : 'X' ∉ l := fun hc => (h _ hc).1 rfl

theorem Unmarked.asterisk_not_mem (h : Unmarked l) : '*' ∉ l := fun hc => (h _ hc).2.1 rfl

theorem Unmarked.of_trim (h : Unmarked (trim l)) : Unmarked l := by
  intro c hc
  by_cases hw : isWhiteSpace c = true
  · refine ⟨?_, ?_, ?_⟩ <;> rintro rfl <;> revert hw <;> decide
  · exact h c (mem_trim hc (Bool.eq_false_iff.mpr hw))

namespace Numeral

def IsDecimalChar (c : Char) : Prop :=
  c.isDigit = true ∨ c ∈ ".eE+-".toList

theorem unmarked_of_isDecimalChar (h : ∀ c ∈ l, IsDecimalChar c) : Unmarked l := by
  intro c hc
  refine ⟨?_, ?_, ?_⟩ <;> rintro rfl <;> simpa [IsDecimalChar] using h _ hc

theorem isDigit_of_exponentDigits? (h : exponentDigits? l = some k) :
    ∀ c ∈ l, c.isDigit = true := by
  unfold exponentDigits? at h
  split_ifs at h with hl
  simpa using hl.2

theorem isDecimalChar_of_exponent? (h : exponent? l = some i) : ∀ c ∈ l, IsDecimalChar c := by
  cases l with
  | nil => simp
  | cons mark text =>
    dsimp only [exponent?] at h
    split_ifs at h with hmark
    have hm : IsDecimalChar mark := by
      rcases hmark with rfl | rfl <;> exact .inr (by decide)
    refine List.forall_mem_cons.mpr ⟨hm, ?_⟩
    split at h
    · next digits =>
      cases hd : exponentDigits? digits with
      | none => simp [hd] at h
      | some k =>
        have hdigits := isDigit_of_exponentDigits? hd
        exact List.forall_mem_cons.mpr ⟨.inr (by decide), fun c hc => .inl (hdigits c hc)⟩
    · next digits =>
      obtain ⟨k, hd, -⟩ := Option.map_eq_some_iff.mp h
      have hdigits := isDigit_of_exponentDigits? hd
      exact List.forall_mem_cons.mpr ⟨.inr (by decide), fun c hc => .inl (hdigits c hc)⟩
    · obtain ⟨k, hd, -⟩ := Option.map_eq_some_iff.mp h
      exact fun c hc => .inl (isDigit_of_exponentDigits? hd c hc)

theorem isDecimalChar_of_dropWhile (h : ∀ c ∈ l.dropWhile Char.isDigit, IsDecimalChar c) :
    ∀ c ∈ l, IsDecimalChar c := by
  rw [← List.takeWhile_append_dropWhile (p := Char.isDigit) (l := l)]
  exact List.forall_mem_append.mpr ⟨fun c hc => .inl (List.mem_takeWhile_imp hc), h⟩

theorem isDecimalChar_of_unsignedDecimal? (h : unsignedDecimal? l = some x) :
    ∀ c ∈ l, IsDecimalChar c := by
  refine isDecimalChar_of_dropWhile ?_
  unfold unsignedDecimal? at h
  dsimp only at h
  split at h
  · next rest hrest =>
    split_ifs at h
    obtain ⟨i, hi, -⟩ := Option.map_eq_some_iff.mp h
    rw [hrest]
    exact List.forall_mem_cons.mpr ⟨.inr (by decide),
      isDecimalChar_of_dropWhile (isDecimalChar_of_exponent? hi)⟩
  · split_ifs at h
    obtain ⟨i, hi, -⟩ := Option.map_eq_some_iff.mp h
    exact isDecimalChar_of_exponent? hi

/-- The special values are written with letters that none of the marks is a capital of. -/
theorem unmarked_of_special? (h : special? l = some x) : Unmarked l := by
  have key {name : List Char} (hname : l.map Char.toLower = name)
      (hnot : ∀ c ∈ name, c ≠ 'x' ∧ c ≠ '*' ∧ c ≠ '^') : Unmarked l := by
    intro c hc
    have hlower := hnot c.toLower (hname ▸ List.mem_map_of_mem hc)
    refine ⟨?_, ?_, ?_⟩ <;> rintro rfl
    · exact hlower.1 rfl
    · exact hlower.2.1 rfl
    · exact hlower.2.2 rfl
  unfold special? at h
  dsimp only at h
  split_ifs at h with hnan hinf
  · exact key hnan (by simp)
  · rcases hinf with hinf | hinf <;> exact key hinf (by simp)

theorem unmarked_of_unsignedFloat? (h : unsignedFloat? l = some x) : Unmarked l := by
  rw [unsignedFloat?, Option.or_eq_some_iff] at h
  rcases h with h | ⟨-, h⟩
  · exact unmarked_of_isDecimalChar (isDecimalChar_of_unsignedDecimal? h)
  · exact unmarked_of_special? h

theorem unmarked_of_readFloat (h : readFloat l = .ok x) : Unmarked l := by
  unfold readFloat at h
  split_ifs at h
  split at h
  · next y hy =>
    unfold signedFloat? at hy
    split at hy
    · obtain ⟨z, hz, -⟩ := Option.map_eq_some_iff.mp hy
      exact List.forall_mem_cons.mpr ⟨by decide, unmarked_of_unsignedFloat? hz⟩
    · exact List.forall_mem_cons.mpr ⟨by decide, unmarked_of_unsignedFloat? hy⟩
    · exact unmarked_of_unsignedFloat? hy
  · cases h

theorem isDigit_of_foldlM (h : l.foldlM appendDigit k = .ok m) : ∀ c ∈ l, c.isDigit = true := by
  induction l generalizing k with
  | nil => simp
  | cons c l ih =>
    rw [List.foldlM_cons, bind_eq_ok] at h
    obtain ⟨n, hn, h⟩ := h
    refine List.forall_mem_cons.mpr ⟨?_, ih h⟩
    cases hc : c.isDigit with
    | true => rfl
    | false => simp [appendDigit, hc] at hn

theorem unmarked_of_readCount (h : readCount l = .ok n) : Unmarked l := by
  have key {m : List Char} (hm : UInt64.ofNat <$> m.foldlM appendDigit 0 = .ok n) : Unmarked m := by
    obtain ⟨k, hk, -⟩ := map_eq_ok.mp hm
    exact unmarked_of_isDecimalChar fun c hc => .inl (isDigit_of_foldlM hk c hc)
  unfold readCount at h
  split at h
  · cases h
  · cases h
  · exact List.forall_mem_cons.mpr ⟨by decide, key h⟩
  · exact key h

end Numeral

end PolyEq
