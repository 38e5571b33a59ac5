import PolyEq.Equation.Reading
import PolyEq.Proofs.Decimal.RoundTrip
import PolyEq.Text.Sum

/-! # Sums are cut back into their summands

Tightening turns the blanks around the operators of a sum into nothing, and the signs of the
tightened sum are exactly those of its summands. So the fragments of a sum are its summands.
-/

namespace PolyEq

open Float.Model.UnpackedFloat (Sign)

variable {α : Type} {l m : List Char} {P : Char → Prop}

theorem forall_getLast?_append (h : ∀ c ∈ l.getLast?, P c) (h' : ∀ c ∈ m.getLast?, P c) :
    ∀ c ∈ (l ++ m).getLast?, P c := by
  intro c hc
  rw [List.getLast?_append, Option.mem_def, Option.or_eq_some_iff] at hc
  rcases hc with hc | ⟨-, hc⟩
  · exact h' c hc
  · exact h c hc

theorem forall_getLast?_flatMap {f : α → List Char} {l : List α}
    (h : ∀ a ∈ l, ∀ c ∈ (f a).getLast?, P c) : ∀ c ∈ (l.flatMap f).getLast?, P c := by
  induction l with
  | nil => simp
  | cons a l ih =>
    simp only [List.flatMap_cons]
    exact forall_getLast?_append (h a (by simp)) (ih fun b hb => h b (by simp [hb]))

theorem forall_getLast?_cons {d : Char} (h : ∀ c ∈ l.getLast?, P c) (h0 : l ≠ []) :
    ∀ c ∈ (d :: l).getLast?, P c := by
  rwa [List.getLast?_cons_of_ne_nil h0]

theorem forall_getLast?_signed (sign : Sign) (h : ∀ c ∈ l.getLast?, P c) (h0 : l ≠ []) :
    ∀ c ∈ (Display.signed sign l).getLast?, P c := by
  cases sign with
  | positive => exact h
  | negative => exact forall_getLast?_cons h h0

theorem trimStart_eq_self (h : ∀ c ∈ l.head?, isWhiteSpace c = false) : trimStart l = l := by
  cases l with
  | nil => rfl
  | cons c l => simp [trimStart, h c rfl]

theorem trimEnd_eq_self (h : ∀ c ∈ l.getLast?, isWhiteSpace c = false) : trimEnd l = l := by
  rw [← List.head?_reverse] at h
  have hr : l.reverse.dropWhile isWhiteSpace = l.reverse := trimStart_eq_self h
  simp [trimEnd, hr]

theorem trimEnd_append_space (h : ∀ c ∈ l.getLast?, isWhiteSpace c = false) :
    trimEnd (l ++ [' ']) = l := by
  have hs : isWhiteSpace ' ' = true := by decide
  simp only [trimEnd, List.reverse_append, List.reverse_singleton, List.singleton_append,
    List.dropWhile_cons_of_pos hs]
  exact trimEnd_eq_self h

@[simp] theorem sumText_singleton (l : List Char) : sumText [l] = l :=
  List.append_nil l

theorem laterSummand_signed (sign : Sign) (h : ∀ later, l ≠ '-' :: later) :
    laterSummand (Display.signed sign l) = ' ' :: (match sign with
      | .positive => '+'
      | .negative => '-') :: ' ' :: l := by
  cases sign with
  | positive =>
    unfold laterSummand Display.signed
    split
    · next heq => exact absurd heq (h _)
    · rfl
  | negative => rfl

structure IsUnsigned (text : List Char) : Prop where
  chars : ∀ c ∈ text, c ≠ '+' ∧ c ≠ '-' ∧ c ≠ '='
  head : ∃ c later, text = c :: later ∧ c.isDigit = true
  last : ∀ c ∈ text.getLast?, Spacing.isOperator c = false ∧ isWhiteSpace c = false

theorem IsUnsigned.ne_nil (h : IsUnsigned l) : l ≠ [] := by
  obtain ⟨c, later, rfl, -⟩ := h.head
  exact List.cons_ne_nil _ _

theorem IsUnsigned.ne_minus (h : IsUnsigned l) (later : List Char) : l ≠ '-' :: later :=
  fun hl => absurd rfl (h.chars '-' (by simp [hl])).2.1

/-- A summand as it is written, and the same without the blanks around its operators. -/
structure Summand where
  sign : Sign
  written : List Char
  body : List Char
  isUnsigned_written : IsUnsigned written
  isUnsigned_body : IsUnsigned body
  tightenAfter_written (behind : Bool) (text : List Char) :
    Spacing.tightenAfter behind (written ++ text) = body ++ Spacing.tightenAfter false text

namespace Summand

variable {s : Summand} {later summands : List Summand}

def text (s : Summand) : List Char :=
  Display.signed s.sign s.written

def fragment (s : Summand) : List Char :=
  Display.signed s.sign s.body

def operator (s : Summand) : Char :=
  match s.sign with
  | .positive => '+'
  | .negative => '-'

def joined (s : Summand) : List Char :=
  s.operator :: s.body

theorem laterSummand_text (s : Summand) :
    laterSummand s.text = ' ' :: s.operator :: ' ' :: s.written :=
  laterSummand_signed s.sign s.isUnsigned_written.ne_minus

theorem tightenAfter_text (s : Summand) (text : List Char) :
    Spacing.tightenAfter false (s.text ++ text) =
      s.fragment ++ Spacing.tightenAfter false text := by
  unfold Summand.text fragment
  cases s.sign with
  | positive => exact s.tightenAfter_written false text
  | negative =>
    have h : Spacing.tightenAfter false ('-' :: (s.written ++ text)) =
        '-' :: Spacing.tightenAfter true (s.written ++ text) := by
      simp [Spacing.tightenAfter, Spacing.isBlank, Spacing.isOperator]
    rw [Display.signed, List.cons_append, h, s.tightenAfter_written]
    rfl

theorem tightenAfter_operator (s : Summand) (text : List Char) :
    Spacing.tightenAfter false (' ' :: s.operator :: ' ' :: text) =
      s.operator :: Spacing.tightenAfter true text := by
  unfold operator
  cases s.sign <;>
    simp [Spacing.tightenAfter, Spacing.isBlank, Spacing.isOperator, Spacing.operatorAhead]

theorem tightenAfter_later (later : List Summand) :
    Spacing.tightenAfter false (later.flatMap fun s => laterSummand s.text) =
      later.flatMap joined := by
  induction later with
  | nil => rfl
  | cons s later ih =>
    rw [List.flatMap_cons, laterSummand_text, List.cons_append, List.cons_append, List.cons_append,
      tightenAfter_operator, s.tightenAfter_written, ih]
    rfl

theorem tighten_sumText (s : Summand) (later : List Summand) :
    Spacing.tighten (sumText ((s :: later).map Summand.text)) =
      s.fragment ++ later.flatMap joined := by
  simp [sumText, List.flatMap_map, Spacing.tighten, tightenAfter_text, tightenAfter_later]

theorem cutAtSigns_append (h : ∀ c ∈ l, c ≠ '+' ∧ c ≠ '-') (m : List Char) :
    cutAtSigns (l ++ m) = (l ++ (cutAtSigns m).1, (cutAtSigns m).2) := by
  induction l with
  | nil => rfl
  | cons c l ih =>
    obtain ⟨hp, hm⟩ := h c (by simp)
    have ih := ih fun d hd => h d (by simp [hd])
    simp only [cutAtSigns, List.cons_append, List.foldr_cons, if_neg hp, if_neg hm] at ih ⊢
    simp [ih]

theorem cutAtSigns_body (s : Summand) (m : List Char) :
    cutAtSigns (s.body ++ m) = (s.body ++ (cutAtSigns m).1, (cutAtSigns m).2) :=
  cutAtSigns_append (fun c hc => ⟨(s.isUnsigned_body.chars c hc).1,
    (s.isUnsigned_body.chars c hc).2.1⟩) m

theorem cutAtSigns_joined (s : Summand) (h : (cutAtSigns m).1 = []) :
    cutAtSigns (s.joined ++ m) = ([], s.fragment :: (cutAtSigns m).2) := by
  have hb := s.cutAtSigns_body m
  simp only [h, List.append_nil] at hb
  unfold joined operator fragment
  cases s.sign <;>
    simp only [cutAtSigns, List.cons_append, List.foldr_cons] at hb ⊢ <;>
    rw [hb] <;>
    rfl

theorem cutAtSigns_later (later : List Summand) :
    cutAtSigns (later.flatMap joined) = ([], later.map fragment) := by
  induction later with
  | nil => rfl
  | cons s later ih =>
    simp [cutAtSigns_joined s (by rw [ih]), ih]

theorem fragment_not_blank (s : Summand) : (!s.fragment.all isWhiteSpace) = true := by
  obtain ⟨c, later, h, hc⟩ := s.isUnsigned_body.head
  unfold fragment Display.signed
  cases s.sign <;> simp [h, isWhiteSpace_of_isDigit hc]

/-- A first summand with a minus sign leaves an empty fragment before it, which is dropped. -/
theorem fragments_sum (s : Summand) (later : List Summand) :
    fragments (s.fragment ++ later.flatMap joined) = (s :: later).map fragment := by
  have hl := cutAtSigns_later later
  have hall : ((s :: later).map fragment).filter (fun f => !f.all isWhiteSpace) =
      (s :: later).map fragment := by
    simp only [List.filter_eq_self]
    intro f hf
    obtain ⟨t, -, rfl⟩ := List.mem_map.mp hf
    exact t.fragment_not_blank
  rw [← hall]
  cases hs : s.sign with
  | positive =>
    have hf : s.fragment = s.body := by rw [fragment, hs]; rfl
    unfold fragments
    rw [hf, cutAtSigns_body, hl, List.append_nil, ← hf]
    rfl
  | negative =>
    have hf : s.fragment = s.joined := by rw [fragment, joined, operator, hs]; rfl
    unfold fragments
    rw [hf, cutAtSigns_joined s (by rw [hl]), hl]
    exact List.filter_cons_of_neg (by simp)

theorem getLast?_sum (s : Summand) (later : List Summand) :
    ∀ c ∈ (s.fragment ++ later.flatMap joined).getLast?, Spacing.isOperator c = false := by
  have hb (t : Summand) : ∀ c ∈ t.body.getLast?, Spacing.isOperator c = false :=
    fun c hc => (t.isUnsigned_body.last c hc).1
  refine forall_getLast?_append ?_ (forall_getLast?_flatMap fun t _ => ?_)
  · exact forall_getLast?_signed s.sign (hb s) s.isUnsigned_body.ne_nil
  · exact forall_getLast?_cons (hb t) t.isUnsigned_body.ne_nil

theorem hasConsecutivePlus_cons {c : Char} (h : c ≠ '+') :
    hasConsecutivePlus (c :: l) = hasConsecutivePlus l := by
  rw [hasConsecutivePlus]
  intro _ hc
  exact absurd hc h

theorem hasConsecutivePlus_append (h : ∀ c ∈ l, c ≠ '+') (m : List Char) :
    hasConsecutivePlus (l ++ m) = hasConsecutivePlus m := by
  induction l with
  | nil => rfl
  | cons c l ih =>
    simp [hasConsecutivePlus_cons (h c (by simp)), ih fun d hd => h d (by simp [hd])]

theorem hasConsecutivePlus_body (s : Summand) (m : List Char) :
    hasConsecutivePlus (s.body ++ m) = hasConsecutivePlus m :=
  hasConsecutivePlus_append (fun c hc => (s.isUnsigned_body.chars c hc).1) m

theorem hasConsecutivePlus_joined (s : Summand) (m : List Char) :
    hasConsecutivePlus (s.joined ++ m) = hasConsecutivePlus m := by
  unfold joined operator
  cases s.sign with
  | positive =>
    obtain ⟨c, later, h, hc⟩ := s.isUnsigned_body.head
    have hne : c ≠ '+' := ne_of_isDigit hc (by decide)
    have hb := s.hasConsecutivePlus_body m
    rw [h] at hb ⊢
    rw [← hb]
    simp [hasConsecutivePlus, hne]
  | negative =>
    rw [List.cons_append, hasConsecutivePlus_cons (by decide), hasConsecutivePlus_body]

theorem hasConsecutivePlus_later (later : List Summand) :
    hasConsecutivePlus (later.flatMap joined) = false := by
  induction later with
  | nil => rfl
  | cons s later ih => rw [List.flatMap_cons, hasConsecutivePlus_joined, ih]

theorem hasConsecutivePlus_sum (s : Summand) (later : List Summand) :
    hasConsecutivePlus (s.fragment ++ later.flatMap joined) = false := by
  unfold fragment
  cases s.sign with
  | positive => rw [Display.signed, hasConsecutivePlus_body, hasConsecutivePlus_later]
  | negative =>
    rw [Display.signed, List.cons_append, hasConsecutivePlus_cons (by decide),
      hasConsecutivePlus_body, hasConsecutivePlus_later]

theorem readSide_sumText (side : Side) (s : Summand) (later : List Summand) :
    readSide side (sumText ((s :: later).map Summand.text)) =
      ⟨s.fragment ++ later.flatMap joined, (readFragments ((s :: later).map fragment)).1,
        (readFragments ((s :: later).map fragment)).2⟩ := by
  have hd : ¬ (s.fragment ++ later.flatMap joined).getLast?.any Spacing.isOperator = true := by
    simp only [Option.any_eq_true]
    rintro ⟨c, hc, ho⟩
    simp [getLast?_sum s later c hc] at ho
  have hn : ¬ (s :: later).map fragment = [] := List.cons_ne_nil _ _
  rw [readSide, tighten_sumText, if_neg hd, hasConsecutivePlus_sum, if_neg Bool.false_ne_true,
    fragments_sum, if_neg hn]

end Summand

section

variable {fragment : List Char} {fault : ReadError} {t : Term}

theorem readFragments_cons_error (h : Term.read fragment = .error fault)
    (later : List (List Char)) : readFragments (fragment :: later) = ([], some fault) := by
  simp only [readFragments, h]

theorem readFragments_cons_none (h : Term.read fragment = .ok none) (later : List (List Char)) :
    readFragments (fragment :: later) = readFragments later := by
  simp only [readFragments, h]

theorem readFragments_cons_some (h : Term.read fragment = .ok (some t))
    (later : List (List Char)) : readFragments (fragment :: later) =
      (⟨fragment, t⟩ :: (readFragments later).1, (readFragments later).2) := by
  simp only [readFragments, h]

end

variable {terms : List Term}

theorem readFragments_map {f : Term → List Char}
    (h : ∀ t ∈ terms, Term.read (f t) = .ok (some t)) :
    readFragments (terms.map f) = (terms.map fun t => ⟨f t, t⟩, none) := by
  induction terms with
  | nil => rfl
  | cons t terms ih =>
    rw [List.map_cons, readFragments_cons_some (h t (by simp)), ih fun u hu => h u (by simp [hu])]
    rfl

theorem result_readSide {f : Term → Summand} (side : Side) (h0 : terms ≠ [])
    (h : ∀ t ∈ terms, Term.read (f t).fragment = .ok (some t)) :
    (readSide side (sumText (terms.map fun t => (f t).text))).result = .ok terms := by
  obtain ⟨t, later, rfl⟩ := List.exists_cons_of_ne_nil h0
  have hs := Summand.readSide_sumText side (f t) (later.map f)
  simp only [← List.map_cons, List.map_map] at hs
  have hr : readFragments ((t :: later).map (Summand.fragment ∘ f)) = _ := readFragments_map h
  rw [hr] at hs
  refine (congrArg SideReading.result hs).trans ?_
  simp only [SideReading.result, List.map_map]
  exact congrArg Except.ok (List.map_id _)

end PolyEq
