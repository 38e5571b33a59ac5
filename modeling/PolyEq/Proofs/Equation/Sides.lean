import PolyEq.Proofs.Equation.Blanks
import PolyEq.Proofs.Equation.Signs
import PolyEq.Proofs.Text.Joining

/-! # The sides of an equation

The two sides are read apart from each other, and in the same way on the left and on the right.
So a text is not read because of a fault on its left, or else because of one on its right. A fault
that names a term names the first one of its side that cannot be read, without its sign.
-/

namespace PolyEq

open Spacing

variable {l r side text body fragment : List Char} {fault : ReadError} {s : Side}
  {fs : List (List Char)}

def fault? {ε α : Type} : Except ε α → Option ε
  | .error fault => some fault
  | .ok _ => none

@[simp] theorem fault?_error {ε α : Type} (fault : ε) :
    fault? (.error fault : Except ε α) = some fault := rfl

@[simp] theorem fault?_ok {ε α : Type} (a : α) : fault? (.ok a : Except ε α) = none := rfl

theorem fault?_eq_some_iff {ε α : Type} {x : Except ε α} {fault : ε} :
    fault? x = some fault ↔ x = .error fault := by
  cases x <;> simp

def ReadError.term? : ReadError → Option String
  | unknownTerm t | malformedNumber t _ => some t
  | _ => none

theorem snd_readFragments_of_result (h : (readSide s text).result = .error fault)
    (hf : fault.term?.isSome = true) :
    (readFragments (fragments (tighten text))).2 = some fault := by
  unfold readSide at h
  dsimp only at h
  split_ifs at h
  · cases h; cases hf
  · cases h; cases hf
  · cases h; cases hf
  · exact SideReading.result_eq_error_iff.mp h

theorem snd_readFragments_eq_some_iff : (readFragments fs).2 = some fault ↔
    ∃ earlier fragment later, fs = earlier ++ fragment :: later ∧
      (∀ f ∈ earlier, ∃ t?, Term.read f = .ok t?) ∧ Term.read fragment = .error fault := by
  induction fs with
  | nil => simp [readFragments]
  | cons f fs ih =>
    cases hf : Term.read f with
    | error cause =>
      rw [readFragments_cons_error hf, Option.some_inj]
      constructor
      · rintro rfl
        exact ⟨[], f, fs, rfl, by simp, hf⟩
      · rintro ⟨_ | ⟨g, earlier⟩, fragment, later, heq, hread, hfault⟩
        · obtain ⟨rfl, rfl⟩ := List.cons.inj heq
          exact Except.error.inj (hf.symm.trans hfault)
        · obtain ⟨rfl, rfl⟩ := List.cons.inj heq
          obtain ⟨t?, ht⟩ := hread f List.mem_cons_self
          cases hf.symm.trans ht
    | ok t? =>
      have hsnd : (readFragments (f :: fs)).2 = (readFragments fs).2 := by
        cases t? with
        | none => rw [readFragments_cons_none hf]
        | some t => rw [readFragments_cons_some hf]
      rw [hsnd, ih]
      constructor
      · rintro ⟨earlier, fragment, later, rfl, hread, hfault⟩
        exact ⟨f :: earlier, fragment, later, rfl,
          List.forall_mem_cons.mpr ⟨⟨t?, hf⟩, hread⟩, hfault⟩
      · rintro ⟨_ | ⟨g, earlier⟩, fragment, later, heq, hread, hfault⟩
        · obtain ⟨rfl, rfl⟩ := List.cons.inj heq
          cases hf.symm.trans hfault
        · obtain ⟨rfl, rfl⟩ := List.cons.inj heq
          exact ⟨earlier, fragment, later, rfl, (List.forall_mem_cons.mp hread).2, hfault⟩

theorem Term.term?_of_readUnsigned (h : Term.readUnsigned body = .error fault) :
    fault.term? = some (.ofList body) := by
  unfold Term.readUnsigned at h
  split at h
  · cases h; rfl
  · split at h
    · cases h
    · cases h; rfl

theorem Term.read_eq_error (hf : fragment = body ∨ fragment = '-' :: body)
    (hbody : ∀ c ∈ body, c ≠ '+' ∧ c ≠ '-') (h : Term.read fragment = .error fault) :
    body ≠ [] ∧ fault.term? = some (.ofList body) ∧ Term.read body = .error fault := by
  have h0 : body ≠ [] := by
    rintro rfl
    rcases hf with rfl | rfl <;> cases h
  have hunsigned : Term.readUnsigned body = .error fault := by
    rcases hf with rfl | rfl
    · rw [Term.read_body h0 hbody] at h
      cases hr : Term.readUnsigned fragment with
      | error cause => rw [hr] at h; cases h; rfl
      | ok t => rw [hr] at h; cases h
    · rw [Term.read_minus_body h0] at h
      cases hr : Term.readUnsigned body with
      | error cause => rw [hr] at h; cases h; rfl
      | ok t => rw [hr] at h; cases h
  refine ⟨h0, Term.term?_of_readUnsigned hunsigned, ?_⟩
  rw [Term.read_body h0 hbody, hunsigned]
  rfl

/-- The text is the first fragment of a side that is not read, without its sign. -/
structure FirstFault (side body : List Char) (fault : ReadError) : Prop where
  exists_fragments : ∃ earlier fragment later,
    fragments (tighten (trim side)) = earlier ++ fragment :: later ∧
      (fragment = body ∨ fragment = '-' :: body) ∧ ∀ f ∈ earlier, ∃ t?, Term.read f = .ok t?
  ne_nil : body ≠ []
  chars : ∀ c ∈ body, c ≠ '+' ∧ c ≠ '-' ∧ c ≠ '='
  read_eq : Term.read body = .error fault

theorem firstFault_of_result (hside : '=' ∉ side)
    (h : (readSide s (trim side)).result = .error fault) {t : String} (ht : t ∈ fault.term?) :
    FirstFault side t.toList fault := by
  have hsome : fault.term?.isSome = true := by rw [Option.mem_def.mp ht]; rfl
  obtain ⟨earlier, fragment, later, hfs, hearlier, hread⟩ :=
    snd_readFragments_eq_some_iff.mp (snd_readFragments_of_result h hsome)
  have hmem : fragment ∈ fragments (tighten (trim side)) := by simp [hfs]
  have hequals : ∀ c ∈ tighten (trim side), c ≠ '=' := by
    rintro _ hc rfl
    exact hside ((trim_sublist side).subset ((tighten_sublist _).subset hc))
  obtain ⟨body, hfragment, hbody⟩ := exists_body_of_mem_fragments hequals hmem
  obtain ⟨h0, hterm, hbodyRead⟩ :=
    Term.read_eq_error hfragment (fun c hc => (hbody c hc).2) hread
  obtain rfl : t = .ofList body := Option.some.inj (ht.symm.trans hterm)
  rw [String.toList_ofList]
  exact ⟨⟨earlier, fragment, later, hfs, hfragment, hearlier⟩, h0,
    fun c hc => ⟨(hbody c hc).2.1, (hbody c hc).2.2, (hbody c hc).1⟩, hbodyRead⟩

theorem exists_last_tighten (h0 : trim text ≠ [])
    (hop : ∀ c ∈ (tighten (trim text)).getLast?, isOperator c = false) :
    ∃ l c, tighten (trim text) = l ++ [c] ∧ isWhiteSpace c = false ∧ c ≠ '+' ∧ c ≠ '-' := by
  have hend := getLast?_tighten (getLast?_trim (l := text))
  obtain ⟨c, hc⟩ : ∃ c, (trim text).getLast? = some c := ⟨_, List.getLast?_eq_some_getLast h0⟩
  obtain ⟨l, hl⟩ := List.getLast?_eq_some_iff.mp (hend.trans hc)
  have hoperator := hop c (hend.trans hc)
  refine ⟨l, c, hl, getLast?_trim c hc, ?_, ?_⟩ <;> rintro rfl <;> cases hoperator

theorem fragments_trim_ne_nil (h0 : trim text ≠ [])
    (hop : ¬ (tighten (trim text)).getLast?.any isOperator = true) :
    fragments (tighten (trim text)) ≠ [] := by
  obtain ⟨l, c, hl, hwhite, hsign⟩ := exists_last_tighten h0 fun c hc => by
    simpa [Option.mem_def.mp hc] using hop
  exact fragments_ne_nil hsign hwhite (by simp [hl])

/-- A side that is not blank is read in the same way on the left and on the right. -/
theorem readSide_trim (h0 : trim text ≠ []) (s s' : Side) :
    readSide s (trim text) = readSide s' (trim text) := by
  unfold readSide
  dsimp only
  split_ifs with hop hplus hnone
  · rfl
  · rfl
  · exact absurd hnone (fragments_trim_ne_nil h0 hop)
  · rfl

namespace Equation

theorem readText_sides (hl : '=' ∉ l) (hr : '=' ∉ r) (hl0 : trim l ≠ []) (hr0 : trim r ≠ []) :
    readText (l ++ '=' :: r) = (do
      let leftTerms ← (readSide .left (trim l)).result
      let rightTerms ← (readSide .left (trim r)).result
      return ofSides leftTerms rightTerms) := by
  rw [readText, splitSides_append hl hr, if_neg hl0, if_neg hr0, readSide_trim hr0 .left .right]
  rfl

theorem fault?_readText_sides (hl : '=' ∉ l) (hr : '=' ∉ r) (hl0 : trim l ≠ [])
    (hr0 : trim r ≠ []) : fault? (readText (l ++ '=' :: r)) =
      (fault? (readSide .left (trim l)).result).or (fault? (readSide .left (trim r)).result) := by
  rw [readText_sides hl hr hl0 hr0]
  cases (readSide .left (trim l)).result with
  | error fault => rfl
  | ok leftTerms =>
    cases (readSide .left (trim r)).result with
    | error fault => rfl
    | ok rightTerms => rfl

theorem fault?_readText_zero (hl : '=' ∉ l) (hl0 : trim l ≠ []) :
    fault? (readText (l ++ '=' :: ['0'])) = fault? (readSide .left (trim l)).result := by
  have hz : fault? (readSide .left (trim ['0'])).result = none := by decide +kernel
  rw [fault?_readText_sides hl (by decide) hl0 (by decide), hz, Option.or_none]

/-- The fault of an equation is that of its left side alone, or else that of its right side alone.
So the sides may be exchanged without making it readable or not. A term that the fault names is the
first one that is not read on the side that is at fault. -/
theorem fault?_read_sides {l r : String} (hl : '=' ∉ l.toList) (hr : '=' ∉ r.toList)
    (hl0 : ∃ c ∈ l.toList, isWhiteSpace c = false)
    (hr0 : ∃ c ∈ r.toList, isWhiteSpace c = false) :
    fault? (read (l ++ "=" ++ r)) =
        (fault? (read (l ++ "=0"))).or (fault? (read (r ++ "=0"))) ∧
      (fault? (read (l ++ "=" ++ r))).isSome = (fault? (read (r ++ "=" ++ l))).isSome ∧
      ∀ fault ∈ fault? (read (l ++ "=" ++ r)), ∀ t ∈ fault.term?,
        FirstFault (if (fault? (read (l ++ "=0"))).isSome then l else r).toList t.toList fault := by
  have hl0 := trim_ne_nil hl0
  have hr0 := trim_ne_nil hr0
  have hzero {t : String} :
      fault? (read (t ++ "=0")) = fault? (readText (t.toList ++ '=' :: ['0'])) := by
    simp [read, String.toList_append]
  have hsides {t u : String} :
      fault? (read (t ++ "=" ++ u)) = fault? (readText (t.toList ++ '=' :: u.toList)) := by
    simp [read, String.toList_append]
  simp only [hzero, hsides, fault?_readText_zero hl hl0, fault?_readText_zero hr hr0,
    fault?_readText_sides hl hr hl0 hr0, fault?_readText_sides hr hl hr0 hl0]
  refine ⟨trivial, by simp [Bool.or_comm], fun fault hfault t ht => ?_⟩
  cases hleft : fault? (readSide .left (trim l.toList)).result with
  | some cause =>
    obtain rfl : cause = fault := by simpa [hleft] using hfault
    exact firstFault_of_result hl (fault?_eq_some_iff.mp hleft) ht
  | none =>
    rw [hleft, Option.none_or] at hfault
    exact firstFault_of_result hr (fault?_eq_some_iff.mp hfault) ht

/-- Both sides are at fault. The left one is reported, with its second term. -/
theorem fault?_read_unknown_terms : ∃ l r : String, l = "X - 2Y + 3Z" ∧ r = "1.2.3" ∧
    '=' ∉ l.toList ∧ '=' ∉ r.toList ∧ (∃ c ∈ l.toList, isWhiteSpace c = false) ∧
    (∃ c ∈ r.toList, isWhiteSpace c = false) ∧
    fault? (read (l ++ "=" ++ r)) = (fault? (read (l ++ "=0"))).or (fault? (read (r ++ "=0"))) ∧
    fault? (read (l ++ "=" ++ r)) = some (.unknownTerm "2Y") ∧
    FirstFault l.toList "2Y".toList (.unknownTerm "2Y") := by
  have hl : '=' ∉ "X - 2Y + 3Z".toList := by decide
  have hr : '=' ∉ "1.2.3".toList := by decide
  have hl0 : ∃ c ∈ "X - 2Y + 3Z".toList, isWhiteSpace c = false := ⟨'X', by decide, by decide⟩
  have hr0 : ∃ c ∈ "1.2.3".toList, isWhiteSpace c = false := ⟨'1', by decide, by decide⟩
  obtain ⟨hor, -, hfirst⟩ := fault?_read_sides hl hr hl0 hr0
  have hfault : fault? (read ("X - 2Y + 3Z" ++ "=" ++ "1.2.3")) = some (.unknownTerm "2Y") := by
    decide +kernel
  have hleft : (fault? (read ("X - 2Y + 3Z" ++ "=0"))).isSome = true := by decide +kernel
  have h := hfirst _ hfault "2Y" rfl
  rw [if_pos hleft] at h
  exact ⟨_, _, rfl, rfl, hl, hr, hl0, hr0, hor, hfault, h⟩

end Equation

end PolyEq
