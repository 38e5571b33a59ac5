import PolyEq.Proofs.Text.Blanks

/-! # What tightening erases

The blanks of a text form maximal runs, and tightening erases those of the runs that stand directly
after or before an operator. A scan from left to right that tries an operator with its blanks at
every position, and takes a single character where there is none, erases the same blanks. It never
fails.
-/

namespace PolyEq.Spacing

variable {c : Char} {i : ℕ} {text before run after start rest : List Char}

/-- A maximal run of blanks in a text, with what stands before it and after it. -/
structure IsRun (text before run after : List Char) : Prop where
  eq : text = before ++ (run ++ after)
  blank : ∀ c ∈ run, isBlank c = true
  not_before : ∀ c ∈ before.getLast?, isBlank c = false
  not_after : ∀ c ∈ after.head?, isBlank c = false

/-- The position lies in a maximal run of blanks that stands directly after or before an
operator. -/
def BesideOperator (text : List Char) (i : ℕ) : Prop :=
  ∃ before run after, IsRun text before run after ∧
    before.length ≤ i ∧ i < before.length + run.length ∧
    ((∃ c ∈ before.getLast?, isOperator c = true) ∨ ∃ c ∈ after.head?, isOperator c = true)

/-- The characters at the positions that are not to be erased, in their order. -/
def eraseWhere (p : ℕ → Prop) [DecidablePred p] (text : List Char) : List Char :=
  (text.zipIdx.filter fun (_, i) => ¬ p i).map Prod.fst

theorem exists_blanks_append (text : List Char) : ∃ blanks rest, text = blanks ++ rest ∧
    (∀ c ∈ blanks, isBlank c = true) ∧ ∀ c ∈ rest.head?, isBlank c = false := by
  refine ⟨text.takeWhile isBlank, text.dropWhile isBlank, List.takeWhile_append_dropWhile.symm,
    fun c => List.mem_takeWhile_imp, fun c hc => ?_⟩
  have h := List.head?_dropWhile_not isBlank text
  rwa [Option.mem_def.mp hc] at h

theorem dropWhile_isBlank (h : ∀ c ∈ after.head?, isBlank c = false) :
    after.dropWhile isBlank = after := by
  cases after with
  | nil => rfl
  | cons c after => rw [List.dropWhile_cons_of_neg (by simp [h c rfl])]

theorem operatorAhead_cons_of_blank (hc : isBlank c = true) :
    operatorAhead (c :: text) = operatorAhead text := by
  rw [operatorAhead, List.dropWhile_cons_of_pos hc, operatorAhead]

theorem operatorAhead_cons_of_not_blank (hc : ¬ isBlank c = true) :
    operatorAhead (c :: text) = isOperator c := by
  rw [operatorAhead, List.dropWhile_cons_of_neg hc, List.head?_cons, Option.any_some]

theorem operatorAhead_append_iff (hb : ∀ c ∈ run, isBlank c = true)
    (h : ∀ c ∈ after.head?, isBlank c = false) :
    operatorAhead (run ++ after) = true ↔ ∃ c ∈ after.head?, isOperator c = true := by
  rw [operatorAhead, List.dropWhile_append_of_pos hb, dropWhile_isBlank h]
  exact Option.any_eq_true _ _

theorem IsRun.exists_split (h : IsRun (before ++ c :: after) start run rest)
    (hle : start.length ≤ before.length) (hlt : before.length < start.length + run.length) :
    ∃ left right, before = start ++ left ∧ run = left ++ c :: right ∧ after = right ++ rest := by
  obtain ⟨left, rfl⟩ : start <+: before :=
    List.prefix_of_prefix_length_le ⟨_, h.eq.symm⟩ (List.prefix_append _ _) hle
  have heq : left ++ c :: after = run ++ rest := by
    simpa only [List.append_assoc, List.append_cancel_left_eq] using h.eq
  have hprefix : left ++ [c] <+: run ++ rest := ⟨after, by simpa using heq⟩
  have hlen : (left ++ [c]).length ≤ run.length := by
    simp only [List.length_append, List.length_singleton] at hlt ⊢
    omega
  obtain ⟨right, rfl⟩ := List.prefix_of_prefix_length_le hprefix (List.prefix_append run rest) hlen
  exact ⟨left, right, rfl, by simp, by simpa using heq⟩

/-- A blank is beside an operator if the nearest other character on one of its sides is one. -/
theorem besideOperator_append_iff (before : List Char) (c : Char) (after : List Char) :
    BesideOperator (before ++ c :: after) before.length ↔
      isBlank c = true ∧ (operatorAhead before.reverse || operatorAhead after) = true := by
  rw [Bool.or_eq_true]
  constructor
  · rintro ⟨start, run, rest, hrun, hle, hlt, hop⟩
    obtain ⟨left, right, rfl, rfl, rfl⟩ := hrun.exists_split hle hlt
    obtain ⟨hleft, hc, hright⟩ : (∀ c ∈ left, isBlank c = true) ∧ isBlank c = true ∧
        ∀ c ∈ right, isBlank c = true := by
      simpa only [List.forall_mem_append, List.forall_mem_cons] using hrun.blank
    have hstart := hrun.not_before
    rw [← List.head?_reverse] at hstart hop
    rw [List.reverse_append, operatorAhead_append_iff (by simpa using hleft) hstart,
      operatorAhead_append_iff hright hrun.not_after]
    exact ⟨hc, hop⟩
  · rintro ⟨hc, hop⟩
    obtain ⟨left, start, hleft, hbl, hstart⟩ := exists_blanks_append before.reverse
    obtain ⟨right, rest, rfl, hbr, hrest⟩ := exists_blanks_append after
    rw [hleft, operatorAhead_append_iff hbl hstart, operatorAhead_append_iff hbr hrest] at hop
    obtain rfl : before = start.reverse ++ left.reverse := by
      rw [← List.reverse_append, ← hleft, List.reverse_reverse]
    rw [← List.getLast?_reverse] at hstart hop
    refine ⟨start.reverse, left.reverse ++ c :: right, rest, ⟨by simp, ?_, hstart, hrest⟩,
      by simp, by simp, hop⟩
    simpa [hc, or_imp, forall_and] using ⟨hbl, hbr⟩

theorem besideOperator_iff : BesideOperator text i ↔ text[i]?.any isBlank = true ∧
    (operatorAhead (text.take i).reverse || operatorAhead (text.drop (i + 1))) = true := by
  rcases lt_or_ge i text.length with hi | hi
  · have htext : text = text.take i ++ text[i] :: text.drop (i + 1) := by simp
    have h := besideOperator_append_iff (text.take i) text[i] (text.drop (i + 1))
    rw [← htext, List.length_take_of_le hi.le] at h
    rw [h, List.getElem?_eq_getElem hi, Option.any_some]
  · have hnot : ¬ BesideOperator text i := by
      rintro ⟨before, run, after, hrun, -, hlt, -⟩
      simp only [hrun.eq, List.length_append] at hi
      omega
    simp [hnot, List.getElem?_eq_none hi]

instance (text : List Char) : DecidablePred (BesideOperator text) :=
  fun _ => decidable_of_iff' _ besideOperator_iff

theorem tightenAfter_eq_map_filter (before after : List Char) :
    tightenAfter (operatorAhead before.reverse) after =
      ((after.zipIdx before.length).filter
        fun (_, i) => ¬ BesideOperator (before ++ after) i).map Prod.fst := by
  induction after generalizing before with
  | nil => rfl
  | cons c after ih =>
    have hbeside := besideOperator_append_iff before c after
    have ih := ih (before ++ [c])
    rw [List.reverse_append, List.reverse_singleton, List.singleton_append, List.append_assoc,
      List.singleton_append, List.length_append, List.length_singleton] at ih
    rw [List.zipIdx_cons, tightenAfter]
    split_ifs with hc hop
    · have herase : BesideOperator (before ++ c :: after) before.length := hbeside.mpr ⟨hc, hop⟩
      rw [List.filter_cons_of_neg (by simpa using herase), ← ih, operatorAhead_cons_of_blank hc]
    · have hkeep : ¬ BesideOperator (before ++ c :: after) before.length :=
        fun h => hop (hbeside.mp h).2
      rw [List.filter_cons_of_pos (by simpa using hkeep), List.map_cons, ← ih,
        operatorAhead_cons_of_blank hc]
    · have hkeep : ¬ BesideOperator (before ++ c :: after) before.length :=
        fun h => hc (hbeside.mp h).1
      rw [List.filter_cons_of_pos (by simpa using hkeep), List.map_cons, ← ih,
        operatorAhead_cons_of_not_blank hc]

theorem tighten_eq_eraseWhere (text : List Char) :
    tighten text = eraseWhere (BesideOperator text) text :=
  tightenAfter_eq_map_filter [] text

/-- The blank between a coefficient and its unknown stays. -/
example : tighten "2 X -\t1".toList = "2 X-1".toList := by decide

theorem operatorAhead_tightenAfter (b : Bool) (text : List Char) :
    operatorAhead (tightenAfter b text) = operatorAhead text := by
  induction text generalizing b with
  | nil => rfl
  | cons c text ih =>
    unfold tightenAfter
    split_ifs with hc hop
    · rw [ih, operatorAhead_cons_of_blank hc]
    · rw [operatorAhead_cons_of_blank hc, operatorAhead_cons_of_blank hc, ih]
    · rw [operatorAhead_cons_of_not_blank hc, operatorAhead_cons_of_not_blank hc]

theorem tightenAfter_tightenAfter (b : Bool) (text : List Char) :
    tightenAfter b (tightenAfter b text) = tightenAfter b text := by
  induction text generalizing b with
  | nil => rfl
  | cons c text ih =>
    rw [tightenAfter]
    split_ifs with hc hop
    · exact ih b
    · rw [tightenAfter, if_pos hc, operatorAhead_tightenAfter, if_neg hop, ih]
    · rw [tightenAfter, if_neg hc, ih]

def readChar (p : Char → Bool) : List Char → Option (Char × List Char)
  | [] => none
  | c :: rest => if p c then some (c, rest) else none

def readOperator (text : List Char) : Option (Char × List Char) :=
  (readChar isOperator (text.dropWhile isBlank)).map fun (c, rest) => (c, rest.dropWhile isBlank)

/-- Reads an operator with its blanks or, where there is none, any character. -/
def readPiece (text : List Char) : Option (Char × List Char) :=
  (readOperator text).or (readChar (fun _ => true) text)

/-- Reads pieces up to the first that is refused, and returns their characters and what is left.
A piece that takes nothing from the text would be read for ever, so there the scan fails. -/
def scan (text : List Char) : Option (List Char × List Char) :=
  match readPiece text with
  | none => some ([], text)
  | some (c, rest) =>
    if rest.length < text.length then (scan rest).map fun (read, left) => (c :: read, left)
    else none
termination_by text.length

theorem exists_of_readOperator (h : readOperator text = some (c, rest)) :
    ∃ left right, text = left ++ c :: (right ++ rest) ∧ (∀ c ∈ left, isBlank c = true) ∧
      (∀ c ∈ right, isBlank c = true) ∧ isOperator c = true ∧
      ∀ c ∈ rest.head?, isBlank c = false := by
  obtain ⟨left, later, rfl, hleft, hlater⟩ := exists_blanks_append text
  rw [readOperator, List.dropWhile_append_of_pos hleft, dropWhile_isBlank hlater] at h
  cases later with
  | nil => cases h
  | cons d later =>
    obtain ⟨right, tail, rfl, hright, htail⟩ := exists_blanks_append later
    by_cases hd : isOperator d = true
    · simp only [readChar, if_pos hd, Option.map_some, List.dropWhile_append_of_pos hright,
        dropWhile_isBlank htail] at h
      cases h
      exact ⟨left, right, rfl, hleft, hright, hd, htail⟩
    · simp [readChar, hd] at h

theorem readOperator_eq_none_iff : readOperator text = none ↔ operatorAhead text = false := by
  unfold readOperator operatorAhead
  cases text.dropWhile isBlank with
  | nil => exact iff_of_true rfl rfl
  | cons c rest => simp [readChar]

theorem readPiece_eq_none (h : readPiece text = none) : text = [] := by
  cases text with
  | nil => rfl
  | cons c rest => simp [readPiece, readChar] at h

theorem tightenAfter_of_head (h : ∀ c ∈ text.head?, isBlank c = false) (b : Bool) :
    tightenAfter b text = tighten text := by
  cases text with
  | nil => rfl
  | cons c text =>
    have hc := h c rfl
    rw [tighten, tightenAfter_cons hc, tightenAfter_cons hc]

theorem tighten_cons_of_not_operatorAhead (h : operatorAhead (c :: text) = false) :
    tighten (c :: text) = c :: tighten text := by
  by_cases hc : isBlank c = true
  · rw [operatorAhead_cons_of_blank hc] at h
    simp [tighten, tightenAfter, hc, h]
  · rw [operatorAhead_cons_of_not_blank hc] at h
    simp [tighten, tightenAfter, hc, h]

theorem tighten_of_readPiece (h : readPiece text = some (c, rest)) :
    tighten text = c :: tighten rest ∧ rest.length < text.length := by
  unfold readPiece at h
  cases hop : readOperator text with
  | some piece =>
    rw [hop, Option.some_or, Option.some_inj] at h
    rw [h] at hop
    obtain ⟨left, right, rfl, hleft, hright, hc, hrest⟩ := exists_of_readOperator hop
    constructor
    · rw [tighten, tightenAfter_blanks hleft (.inr ⟨c, rfl, hc⟩),
        tightenAfter_cons (isBlank_of_isOperator hc), hc, tightenAfter_blanks hright (.inl rfl),
        tightenAfter_of_head hrest]
    · simp only [List.length_append, List.length_cons]
      omega
  | none =>
    rw [hop, Option.none_or] at h
    cases text with
    | nil => cases h
    | cons d text =>
      cases h
      exact ⟨tighten_cons_of_not_operatorAhead (readOperator_eq_none_iff.mp hop),
        Nat.lt_succ_self _⟩

theorem scan_eq (text : List Char) : scan text = some (tighten text, []) := by
  induction text using scan.induct with
  | case1 text h =>
    obtain rfl := readPiece_eq_none h
    rw [scan, h]
    rfl
  | case2 text c rest h hlt ih =>
    rw [scan, h]
    simp only [if_pos hlt, ih, Option.map_some, (tighten_of_readPiece h).1]
  | case3 text c rest h hlt => exact absurd (tighten_of_readPiece h).2 hlt

/-- Tightening erases exactly the blanks in the maximal runs beside operators, and nothing is left
to erase after that. The scan never fails and has the same result. -/
theorem tighten_erases_blanks_beside_operators (text : List Char) :
    tighten text = eraseWhere (BesideOperator text) text ∧
    tighten (tighten text) = tighten text ∧
    scan text = some (tighten text, []) :=
  ⟨tighten_eq_eraseWhere text, tightenAfter_tightenAfter false text, scan_eq text⟩

end PolyEq.Spacing
