import PolyEq.Proofs.Equation.Sides
import PolyEq.Proofs.Term.Grammar

/-! # What a side contributes

A side that is read ends in a character that is neither white space nor an operator. So its last
fragment is a term, whatever is skipped before it: each side contributes a term to the equation,
and no side is ever found to be without one.
-/

namespace PolyEq

open Spacing

variable {c : Char} {f l left right side text : List Char} {fs : List (List Char)} {s s' : Side}
  {terms : List Term} {reads : List ReadTerm} {e : Equation}

/-- The text after the last sign, with the sign if it is a minus. -/
def lastPart (text : List Char) : List Char :=
  (cutAtSigns text).2.getLast?.getD (cutAtSigns text).1

theorem lastPart_cons (c : Char) (m : List Char) :
    lastPart (c :: m) = lastPart m ∨ lastPart (c :: m) = c :: lastPart m := by
  unfold lastPart
  by_cases hp : c = '+'
  · rw [hp, cutAtSigns_plus, List.getLast?_cons]
    exact .inl rfl
  by_cases hm : c = '-'
  · rw [hm, cutAtSigns_minus, List.getLast?_cons]
    cases (cutAtSigns m).2.getLast? with
    | none => exact .inr rfl
    | some f => exact .inl rfl
  · rw [cutAtSigns_cons ⟨hp, hm⟩]
    cases (cutAtSigns m).2.getLast? with
    | none => exact .inr rfl
    | some f => exact .inl rfl

theorem getLast?_lastPart (hc : c ≠ '+' ∧ c ≠ '-') (l : List Char) :
    (lastPart (l ++ [c])).getLast? = some c := by
  induction l with
  | nil => rw [List.nil_append, lastPart, cutAtSigns_cons hc]; rfl
  | cons d l ih =>
    rcases lastPart_cons d (l ++ [c]) with h | h
    · rw [List.cons_append, h, ih]
    · rw [List.cons_append, h, List.getLast?_cons, ih]
      rfl

theorem lastPart_concat (hw : isWhiteSpace c = false) (hc : c ≠ '+' ∧ c ≠ '-') (l : List Char) :
    (lastPart (l ++ [c])).all isWhiteSpace = false ∧ lastPart (l ++ [c]) ≠ ['-'] := by
  have hlast := getLast?_lastPart hc l
  constructor
  · rw [← Bool.not_eq_true, List.all_eq_true]
    intro hall
    exact Bool.false_ne_true (hw.symm.trans (hall c (List.mem_of_getLast? hlast)))
  · intro heq
    rw [heq] at hlast
    exact hc.2 (Option.some.inj hlast).symm

theorem exists_fragments_eq (h : (lastPart l).all isWhiteSpace = false) :
    ∃ fs, fragments l = fs ++ [lastPart l] := by
  have hlast : ((cutAtSigns l).1 :: (cutAtSigns l).2).getLast? = some (lastPart l) :=
    List.getLast?_cons
  obtain ⟨parts, hparts⟩ := List.getLast?_eq_some_iff.mp hlast
  refine ⟨visible parts, ?_⟩
  rw [fragments_eq, hparts, visible_append]
  exact congrArg (visible parts ++ ·) (List.filter_cons_of_pos (by simp [h]))

theorem Term.eq_of_read_eq_none (h : Term.read f = .ok none) : f = [] ∨ f = ['-'] := by
  rw [Term.read_eq_none_iff] at h
  unfold Term.unsignedPart at h
  split at h
  · rw [h]; exact .inr rfl
  · exact .inl h

theorem getLast?_of_readFragments (h : readFragments (fs ++ [f]) = (reads, none))
    (hf : f ≠ [] ∧ f ≠ ['-']) :
    ∃ t, Term.read f = .ok (some t) ∧ (reads.map ReadTerm.term).getLast? = some t := by
  induction fs generalizing reads with
  | nil =>
    obtain ⟨t?, reads', ht, h', hterms⟩ := readFragments_cons_ok h
    cases h'
    cases t? with
    | none => exact absurd (Term.eq_of_read_eq_none ht) (not_or.mpr hf)
    | some t => exact ⟨t, ht, by simp [hterms]⟩
  | cons g fs ih =>
    obtain ⟨t?, reads', -, h', hterms⟩ := readFragments_cons_ok h
    obtain ⟨t, ht, hlast⟩ := ih h'
    refine ⟨t, ht, ?_⟩
    rw [hterms, List.getLast?_append, hlast]
    rfl

/-- The last part of a side is neither blank nor a lone minus sign. It is the last fragment, and
what it is read as is the last term. -/
structure EndsInTerm (side : List Char) (terms : List Term) : Prop where
  notBlank : (lastPart (tighten side)).all isWhiteSpace = false
  ne_minus : lastPart (tighten side) ≠ ['-']
  last_fragment : (fragments (tighten side)).getLast? = some (lastPart (tighten side))
  last_term : ∃ t, Term.read (lastPart (tighten side)) = .ok (some t) ∧ terms.getLast? = some t

theorem EndsInTerm.ne_nil (h : EndsInTerm side terms) : terms ≠ [] := by
  rintro rfl
  obtain ⟨t, -, ⟨⟩⟩ := h.last_term

theorem endsInTerm_of_result (h0 : trim text ≠ [])
    (h : (readSide s (trim text)).result = .ok terms) : EndsInTerm (trim text) terms := by
  obtain ⟨hop, -, -, reads, hreads, rfl⟩ := result_readSide_eq_ok_iff.mp h
  obtain ⟨l, c, hl, hwhite, hsign⟩ := exists_last_tighten h0 hop
  obtain ⟨hblank, hminus⟩ := lastPart_concat hwhite hsign l
  rw [← hl] at hblank hminus
  obtain ⟨fs, hfs⟩ := exists_fragments_eq hblank
  have hnil : lastPart (tighten (trim text)) ≠ [] := by
    intro heq
    rw [heq] at hblank
    cases hblank
  refine ⟨hblank, hminus, by rw [hfs, List.getLast?_concat], ?_⟩
  rw [hfs] at hreads
  exact getLast?_of_readFragments hreads ⟨hnil, hminus⟩

theorem Term.insert_ne_nil (t : Term) (terms : List Term) : Term.insert t terms ≠ [] := by
  cases terms with
  | nil => exact List.cons_ne_nil _ _
  | cons s terms =>
    unfold Term.insert
    split_ifs <;> exact List.cons_ne_nil _ _

theorem Term.read_ne_noTerms : Term.read f ≠ .error (.noTerms s) := by
  rw [Term.read_eq]
  split_ifs
  · nofun
  · intro h
    cases hu : Term.readUnsigned (Term.unsignedPart f) with
    | ok t => rw [hu] at h; cases h
    | error fault =>
      rw [hu] at h
      cases h
      cases Term.term?_of_readUnsigned hu

theorem result_readSide_ne_noTerms (h0 : trim text ≠ []) :
    (readSide s (trim text)).result ≠ .error (.noTerms s') := by
  intro h
  unfold readSide at h
  dsimp only at h
  split_ifs at h with hop hplus hnone
  · cases h
  · cases h
  · exact fragments_trim_ne_nil h0 hop hnone
  · obtain ⟨earlier, f, later, -, -, hf⟩ := snd_readFragments_eq_some_iff.mp
      (SideReading.result_eq_error_iff.mp h)
    exact Term.read_ne_noTerms hf

theorem exists_trim_of_splitSides (h : splitSides text = .ok (left, right)) :
    ∃ l r, left = trim l ∧ right = trim r ∧ trim l ≠ [] ∧ trim r ≠ [] := by
  unfold splitSides at h
  dsimp only at h
  split_ifs at h with hcount hl hr
  cases h
  exact ⟨_, _, rfl, rfl, hl, hr⟩

theorem splitSides_ne_noTerms : splitSides text ≠ .error (.noTerms s) := by
  unfold splitSides
  dsimp only
  split_ifs <;> nofun

namespace Equation

theorem terms_addAll_ne_nil (h : e.terms ≠ [] ∨ terms ≠ []) : (e.addAll terms s).terms ≠ [] := by
  induction terms generalizing e with
  | nil => exact h.resolve_right (absurd rfl)
  | cons t terms ih => exact ih (.inl (Term.insert_ne_nil _ _))

theorem readText_ne_noTerms : readText text ≠ .error (.noTerms s) := by
  intro h
  simp only [readText, bind_eq_error] at h
  rcases h with h | ⟨⟨left, right⟩, hsides, h⟩
  · exact splitSides_ne_noTerms h
  obtain ⟨l, r, rfl, rfl, hl, hr⟩ := exists_trim_of_splitSides hsides
  rcases h with h | ⟨leftTerms, -, h | ⟨rightTerms, -, h⟩⟩
  · exact result_readSide_ne_noTerms hl h
  · exact result_readSide_ne_noTerms hr h
  · cases h

/-- No side is found to be without terms. In an equation that is read, each side ends in a term,
and so the equation has one. -/
theorem read_ends_in_term (text : String) :
    (∀ side, read text ≠ .error (.noTerms side)) ∧
      ∀ e, read text = .ok e →
        ∃ left right leftTerms rightTerms, splitSides text.toList = .ok (left, right) ∧
          (readSide .left left).result = .ok leftTerms ∧
          (readSide .right right).result = .ok rightTerms ∧
          e = ofSides leftTerms rightTerms ∧
          EndsInTerm left leftTerms ∧ EndsInTerm right rightTerms ∧
          leftTerms ≠ [] ∧ rightTerms ≠ [] ∧ e.terms ≠ [] := by
  refine ⟨fun side => readText_ne_noTerms, fun e he => ?_⟩
  obtain ⟨left, right, leftTerms, rightTerms, hsides, hleft, hright, rfl⟩ := exists_of_readText he
  obtain ⟨l, r, rfl, rfl, hl, hr⟩ := exists_trim_of_splitSides hsides
  have hleftEnd := endsInTerm_of_result hl hleft
  have hrightEnd := endsInTerm_of_result hr hright
  exact ⟨_, _, _, _, hsides, hleft, hright, rfl, hleftEnd, hrightEnd, hleftEnd.ne_nil,
    hrightEnd.ne_nil, terms_addAll_ne_nil (.inr hrightEnd.ne_nil)⟩

/-- A lone minus sign and two fragments of white space are skipped, but never the last fragment. -/
theorem read_skipped_fragments : ∃ (text : String) (e : Equation),
    text = "- +\u00a0+-X = 2+\u3000+-5" ∧ read text = .ok e ∧ e.terms ≠ [] := by
  obtain ⟨e, he⟩ := exists_readText_eq_ok "- +\u00a0+-X = 2+\u3000+-5".toList (by decide +kernel)
  obtain ⟨-, -, -, -, -, -, -, -, -, -, -, -, hne⟩ := (read_ends_in_term _).2 e he
  exact ⟨_, e, rfl, he, hne⟩

end Equation

end PolyEq
