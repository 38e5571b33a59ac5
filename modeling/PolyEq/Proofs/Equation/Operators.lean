import PolyEq.Proofs.Text.Neighbours

/-! # Operators without operands

An asterisk or a caret stands between two operands. A minus sign after it begins a fragment of its
own, but then the fragment before ends in the operator, and no term does. So the text is not read,
whatever the signs around the operator are.
-/

namespace PolyEq

open Spacing

variable {c d : Char} {f l m body left right text : List Char} {side : Side} {t : Term}
  {t? : Option Term} {s : Term.Spelling} {terms : List Term}

namespace Spacing

def isInner (c : Char) : Bool :=
  c == '*' || c == '^'

/-- Neither of two neighbouring operators has an operand between them, and one needs it. -/
def collide (c d : Char) : Bool :=
  isOperator c && isOperator d && (isInner c || isInner d)

theorem collide_of_left (h : isOperator c = false) (d : Char) : collide c d = false := by
  simp [collide, h]

theorem collide_of_right (h : isOperator d = false) (c : Char) : collide c d = false := by
  simp [collide, h]

theorem isOperator_of_collide (h : collide c d = true) :
    isOperator c = true ∧ isOperator d = true := by
  simp only [collide, Bool.and_eq_true] at h
  exact h.1

theorem collide_sign (hd : d = '+' ∨ d = '-') (c : Char) : collide c d = collide c '+' := by
  rcases hd with rfl | rfl
  · rfl
  · simp [collide, isOperator, isInner]

theorem not_isWhiteSpace_of_isOperator (h : isOperator c = true) : isWhiteSpace c = false := by
  simp only [isOperator, Bool.or_eq_true, beq_iff_eq] at h
  rcases h with ((rfl | rfl) | rfl) | rfl <;> decide

theorem not_isDigit_of_isOperator (h : isOperator c = true) : c.isDigit = false := by
  simp only [isOperator, Bool.or_eq_true, beq_iff_eq] at h
  rcases h with ((rfl | rfl) | rfl) | rfl <;> decide

end Spacing

/-- An asterisk or a caret is next to another operator, perhaps with blanks between them. -/
def OperatorsCollide (text : List Char) : Prop :=
  ∃ c blanks d, c :: (blanks ++ [d]) <:+: text ∧ (∀ b ∈ blanks, isBlank b = true) ∧
    collide c d = true

def Apart (text : List Char) : Prop :=
  text.IsChain fun c d => collide c d = false

instance (text : List Char) : Decidable (Apart text) :=
  inferInstanceAs (Decidable (List.IsChain _ text))

namespace Apart

theorem rel (h : Apart (c :: d :: l)) : collide c d = false :=
  (List.isChain_cons_cons.mp (show List.IsChain _ _ from h)).1

theorem cons (h : Apart m) (hc : isOperator c = false) : Apart (c :: m) :=
  List.IsChain.cons h fun d _ => collide_of_left hc d

/-- An operand keeps what follows it apart from what stands before it. -/
theorem insert (h : Apart m) (h0 : l ≠ []) (hl : ∀ c ∈ l, isOperator c = false) (c : Char) :
    Apart (c :: (l ++ m)) := by
  have hlm : Apart (l ++ m) := by
    clear h0
    induction l with
    | nil => exact h
    | cons d l ih =>
      obtain ⟨hd, hl⟩ := List.forall_mem_cons.mp hl
      exact (ih hl).cons hd
  obtain ⟨d, l, rfl⟩ := List.exists_cons_of_ne_nil h0
  refine List.IsChain.cons hlm ?_
  rintro _ ⟨rfl⟩
  exact collide_of_right (hl d List.mem_cons_self) c

/-- What comes before the first sign decides whether the character in front of a text collides. -/
theorem cons_of_cutAtSigns (hl : Apart (l ++ ['+']))
    (h : Apart (c :: ((cutAtSigns l).1 ++ ['+']))) : Apart (c :: (l ++ ['+'])) := by
  cases l with
  | nil => exact h
  | cons d l =>
    refine List.IsChain.cons hl ?_
    rintro _ ⟨rfl⟩
    by_cases hd : d = '+' ∨ d = '-'
    · have hstart : StartsWithSign (d :: l) := by
        rintro _ ⟨rfl⟩
        exact hd
      rw [hstart.cutAtSigns_fst] at h
      rw [collide_sign hd]
      exact h.rel
    · rw [cutAtSigns_cons (not_or.mp hd)] at h
      exact h.rel

theorem of_cutAtSigns (hfirst : Apart ((cutAtSigns l).1 ++ ['+']))
    (hlater : ∀ f ∈ (cutAtSigns l).2, Apart ('+' :: (f ++ ['+']))) : Apart (l ++ ['+']) := by
  induction l with
  | nil => exact hfirst
  | cons c l ih =>
    by_cases hp : c = '+'
    · rw [hp, cutAtSigns_plus] at hlater
      obtain ⟨h, hlater⟩ := List.forall_mem_cons.mp hlater
      rw [hp]
      exact (ih (List.IsChain.tail h) hlater).cons_of_cutAtSigns h
    by_cases hm : c = '-'
    · rw [hm, cutAtSigns_minus] at hlater
      obtain ⟨h, hlater⟩ := List.forall_mem_cons.mp hlater
      have h := List.IsChain.tail h
      rw [hm]
      exact (ih (List.IsChain.tail h) hlater).cons_of_cutAtSigns h
    · rw [cutAtSigns_cons ⟨hp, hm⟩] at hfirst hlater
      exact (ih (List.IsChain.tail hfirst) hlater).cons_of_cutAtSigns hfirst

end Apart

theorem Unmarked.not_isOperator (h : Unmarked l) (hl : ∀ c ∈ l, c ≠ '+' ∧ c ≠ '-') :
    ∀ c ∈ l, isOperator c = false := by
  intro c hc
  simp [isOperator, h c hc, hl c hc]

namespace Term

theorem IsExponent.ne_nil {n : UInt64} (h : IsExponent l n) : l ≠ [] := by
  rintro rfl
  cases h

theorem IsDigits.not_isOperator (h : IsDigits l) : ∀ c ∈ l, isOperator c = false := by
  intro c hc
  rw [← Bool.not_eq_true]
  intro ho
  rcases h.chars c hc with hd | rfl
  · exact Bool.false_ne_true ((not_isDigit_of_isOperator ho).symm.trans hd)
  · cases ho

theorem Spelling.Spells.apart (h : s.Spells t) (hs : ∀ c ∈ s.text, c ≠ '+' ∧ c ≠ '-')
    (c : Char) : Apart (c :: (s.text ++ ['+'])) := by
  have hX : ∀ c ∈ ['X'], isOperator c = false := List.forall_mem_singleton.mpr rfl
  cases h with
  | constant hl =>
    obtain ⟨d, hd, -⟩ := hl.exists_digit
    exact Apart.insert (by decide) (List.ne_nil_of_mem hd) hl.not_isOperator c
  | unknown => exact Apart.insert (by decide) (by decide) hX c
  | power hn =>
    have hn' := hn.unmarked.not_isOperator fun c hc => hs c (by simp [text, hc])
    have hexp : Apart ('^' :: (_ ++ ['+'])) := Apart.insert (by decide) hn.ne_nil hn' '^'
    exact hexp.insert (by decide) hX c
  | product hc =>
    have hc' := hc.unmarked.not_isOperator fun c hc => hs c (by simp [text, hc])
    have h : Apart ['*', 'X', '+'] := by decide
    simpa [text] using h.insert hc.ne_nil hc' c
  | juxtaposed hc =>
    have hc' := hc.unmarked.not_isOperator fun c hc => hs c (by simp [text, hc])
    have h : Apart ['X', '+'] := by decide
    simpa [text] using h.insert hc.ne_nil hc' c
  | productPower hc hn =>
    have hc' := hc.unmarked.not_isOperator fun c hc => hs c (by simp [text, hc])
    have hn' := hn.unmarked.not_isOperator fun c hc => hs c (by simp [text, hc])
    have hexp : Apart ('^' :: (_ ++ ['+'])) := Apart.insert (by decide) hn.ne_nil hn' '^'
    simpa [text] using (hexp.insert (by decide) hX '*').insert hc.ne_nil hc' c
  | juxtaposedPower hc hn =>
    have hc' := hc.unmarked.not_isOperator fun c hc => hs c (by simp [text, hc])
    have hn' := hn.unmarked.not_isOperator fun c hc => hs c (by simp [text, hc])
    have hexp : Apart ('^' :: (_ ++ ['+'])) := Apart.insert (by decide) hn.ne_nil hn' '^'
    have h : Apart ('X' :: '^' :: (_ ++ ['+'])) := hexp.cons (by decide)
    simpa [text] using h.insert hc.ne_nil hc' c

theorem apart_of_read (hf : f = body ∨ f = '-' :: body) (hbody : ∀ c ∈ body, c ≠ '+' ∧ c ≠ '-')
    (h : read f = .ok t?) : Apart ('+' :: (f ++ ['+'])) := by
  rcases eq_or_ne body [] with rfl | h0
  · rcases hf with rfl | rfl <;> decide
  obtain ⟨t, ht⟩ : ∃ t, readUnsigned body = .ok t := by
    rcases hf with rfl | rfl
    · rw [read_body h0 hbody, map_eq_ok] at h
      exact ⟨_, h.choose_spec.1⟩
    · rw [read_minus_body h0, map_eq_ok] at h
      exact ⟨_, h.choose_spec.1⟩
  obtain ⟨s, rfl, hs⟩ := readUnsigned_eq_ok_iff.mp ht
  rcases hf with rfl | rfl
  · exact hs.apart hbody '+'
  · exact List.IsChain.cons_cons (by decide) (hs.apart hbody '-')

end Term

theorem apart_of_blank (h : f.all isWhiteSpace = true) : Apart ('+' :: (f ++ ['+'])) := by
  rw [List.all_eq_true] at h
  rcases eq_or_ne f [] with rfl | h0
  · decide
  · refine Apart.insert (by decide) h0 (fun c hc => ?_) '+'
    rw [← Bool.not_eq_true]
    intro ho
    exact Bool.false_ne_true ((not_isWhiteSpace_of_isOperator ho).symm.trans (h c hc))

theorem apart_of_fragments (h : ∀ f ∈ fragments l, ∃ t?, Term.read f = .ok t?) :
    Apart (l ++ ['+']) := by
  have hpart {f body : List Char} (hmem : f ∈ (cutAtSigns l).1 :: (cutAtSigns l).2)
      (hf : f = body ∨ f = '-' :: body) (hbody : ∀ c ∈ body, True ∧ c ≠ '+' ∧ c ≠ '-') :
      Apart ('+' :: (f ++ ['+'])) := by
    cases hblank : f.all isWhiteSpace with
    | true => exact apart_of_blank hblank
    | false =>
      obtain ⟨t?, ht⟩ := h f (by simpa [fragments_eq, visible, hblank] using hmem)
      exact Term.apart_of_read hf (fun c hc => (hbody c hc).2) ht
  obtain ⟨hfirst, hlater⟩ := forall_mem_cutAtSigns (P := fun _ => True) (l := l) (by simp)
  refine Apart.of_cutAtSigns ?_ fun f hf => ?_
  · exact List.IsChain.tail (hpart List.mem_cons_self (.inl rfl) hfirst)
  · obtain ⟨body, hfbody, hbody⟩ := hlater f hf
    exact hpart (List.mem_cons_of_mem _ hf) hfbody hbody

theorem forall_read_of_readFragments {fs : List (List Char)} {reads : List ReadTerm}
    (h : readFragments fs = (reads, none)) : ∀ f ∈ fs, ∃ t?, Term.read f = .ok t? := by
  induction fs generalizing reads with
  | nil => simp
  | cons f fs ih =>
    obtain ⟨t?, reads', hf, hfs, -⟩ := readFragments_cons_ok h
    exact List.forall_mem_cons.mpr ⟨⟨t?, hf⟩, ih hfs⟩

namespace OperatorsCollide

theorem not_apart (h : OperatorsCollide text) : ¬ Apart (tighten text ++ ['+']) := by
  obtain ⟨c, blanks, d, hinfix, hb, hcd⟩ := h
  obtain ⟨hc, hd⟩ := isOperator_of_collide hcd
  obtain ⟨before, after, heq⟩ :=
    exists_tighten_eq (isBlank_of_isOperator hc) (isBlank_of_isOperator hd) hinfix
  rw [hc, tightenAfter_blanks hb (.inl rfl), tightenAfter_cons (isBlank_of_isOperator hd)] at heq
  intro h
  have hpair : [c, d] <:+: tighten text ++ ['+'] :=
    ⟨before, after ++ ['+'], by simp [heq, tightenAfter]⟩
  have hnot := Apart.rel <| List.IsChain.infix h hpair
  exact Bool.false_ne_true (hnot.symm.trans hcd)

theorem of_splitSides (h : OperatorsCollide text) (hsides : splitSides text = .ok (left, right)) :
    OperatorsCollide left ∨ OperatorsCollide right := by
  obtain ⟨c, blanks, d, hinfix, hb, hcd⟩ := h
  obtain ⟨hc, hd⟩ := isOperator_of_collide hcd
  have htrimmed : IsTrimmed (c :: (blanks ++ [d])) := by
    refine ⟨?_, ?_⟩
    · rintro _ ⟨rfl⟩
      exact not_isWhiteSpace_of_isOperator hc
    · intro e he
      rw [← List.cons_append, List.getLast?_concat] at he
      cases he
      exact not_isWhiteSpace_of_isOperator hd
  have hequals : '=' ∉ c :: (blanks ++ [d]) := by
    simp only [List.mem_cons, List.mem_append, List.not_mem_nil, or_false]
    rintro (rfl | hb' | rfl)
    · cases hc
    · cases hb _ hb'
    · cases hd
  refine (infix_of_splitSides hsides htrimmed (by simp) hequals hinfix).imp ?_ ?_
  · exact fun h => ⟨c, blanks, d, h, hb, hcd⟩
  · exact fun h => ⟨c, blanks, d, h, hb, hcd⟩

theorem exists_fault (h : OperatorsCollide text) :
    ∃ f ∈ fragments (tighten text), ∃ fault, Term.read f = .error fault := by
  by_contra hnone
  refine h.not_apart (apart_of_fragments fun f hf => ?_)
  cases ht : Term.read f with
  | ok t? => exact ⟨t?, rfl⟩
  | error fault => exact absurd ⟨f, hf, fault, ht⟩ hnone

end OperatorsCollide

namespace Equation

/-- A text with an asterisk or a caret beside another operator is not read: some fragment of one
of its sides is no term. -/
theorem read_of_operatorsCollide (text : String) (h : OperatorsCollide text.toList) :
    (∃ fault, read text = .error fault) ∧
      ∀ left right, splitSides text.toList = .ok (left, right) →
        ∃ f ∈ fragments (tighten left) ++ fragments (tighten right), ∃ fault,
          Term.read f = .error fault := by
  have hfault (left right) (hsides : splitSides text.toList = .ok (left, right)) :
      ∃ f ∈ fragments (tighten left) ++ fragments (tighten right), ∃ fault,
        Term.read f = .error fault := by
    rcases h.of_splitSides hsides with h | h
    · obtain ⟨f, hf, hread⟩ := h.exists_fault
      exact ⟨f, List.mem_append_left _ hf, hread⟩
    · obtain ⟨f, hf, hread⟩ := h.exists_fault
      exact ⟨f, List.mem_append_right _ hf, hread⟩
  refine ⟨?_, hfault⟩
  cases hread : read text with
  | error fault => exact ⟨fault, rfl⟩
  | ok e =>
    exfalso
    obtain ⟨left, right, leftTerms, rightTerms, hsides, hl, hr, -⟩ := exists_of_readText hread
    obtain ⟨-, -, -, leftReads, hleft, -⟩ := result_readSide_eq_ok_iff.mp hl
    obtain ⟨-, -, -, rightReads, hright, -⟩ := result_readSide_eq_ok_iff.mp hr
    obtain ⟨f, hf, fault, herror⟩ := hfault left right hsides
    obtain ⟨t?, hok⟩ : ∃ t?, Term.read f = .ok t? := (List.mem_append.mp hf).elim
      (forall_read_of_readFragments hleft f) (forall_read_of_readFragments hright f)
    cases hok.symm.trans herror

/-- Neither `2*` nor `X^` is a term of its own. -/
theorem read_negative_factor_and_power :
    OperatorsCollide "2 * -3 + X ^\t-2 = 1".toList ∧
      (∃ fault, read "2 * -3 + X ^\t-2 = 1" = .error fault) ∧
      ∃ f ∈ fragments (tighten "2 * -3 + X ^\t-2".toList) ++ fragments (tighten ['1']), ∃ fault,
        Term.read f = .error fault := by
  have h : OperatorsCollide "2 * -3 + X ^\t-2 = 1".toList :=
    ⟨'^', ['\t'], '-', ⟨"2 * -3 + X ".toList, "2 = 1".toList, by decide⟩,
      List.forall_mem_singleton.mpr rfl, by decide⟩
  have hsides : splitSides "2 * -3 + X ^\t-2 = 1".toList =
      .ok ("2 * -3 + X ^\t-2".toList, ['1']) := by decide +kernel
  obtain ⟨hfault, hterm⟩ := read_of_operatorsCollide _ h
  exact ⟨h, hfault, hterm _ _ hsides⟩

end Equation

end PolyEq
