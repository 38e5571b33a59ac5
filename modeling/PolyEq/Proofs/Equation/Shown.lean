import PolyEq.Proofs.Binary64.Special
import PolyEq.Proofs.Equation.RoundTrip
import PolyEq.Proofs.Text.Infix
import PolyEq.Proofs.Text.Summands

/-! # A reduced form determines its terms

Each number but NaN and the negative zero has a text of its own, also when it is infinite. So two
equations with the same reduced form have the same significant terms, even where the form cannot
be read back.
-/

namespace PolyEq

open Binary64

variable {l m : List Char} {x y : Float} {t u : Term} {ts us : List Term} {e e' : Equation}

namespace IsPlain

theorem space_notMem (h : IsPlain l) : ' ' ∉ l :=
  fun hc => h.ne_of_mem hc rfl (by decide) rfl

theorem isMagnitude (h : IsPlain l) : IsMagnitude l where
  ne_nil := h.ne_nil
  notSign c hc := ⟨h.ne_of_mem hc rfl (by decide), h.ne_of_mem hc rfl (by decide)⟩
  last c hc := h.ne_of_mem (List.mem_of_getLast? hc) rfl (by decide)

end IsPlain

namespace Display

/-- A number that its text determines: it is legible or infinite. -/
def Definite (x : Float) : Prop :=
  Legible x ∨ x.isInf = true

theorem signed_inj {s s' : Float.Model.UnpackedFloat.Sign} (hl : ∀ later, l ≠ '-' :: later)
    (hm : ∀ later, m ≠ '-' :: later) (h : signed s l = signed s' m) : s = s' ∧ l = m := by
  cases s with
  | positive =>
    cases s' with
    | positive => exact ⟨rfl, h⟩
    | negative => exact absurd h (hl _)
  | negative =>
    cases s' with
    | positive => exact absurd h.symm (hm _)
    | negative => exact ⟨rfl, (List.cons.inj h).2⟩

theorem numberText_of_infinity {s : Float.Model.UnpackedFloat.Sign}
    (h : x.toModel.unpack = .infinity s) : numberText x = signed s "inf".toList := by
  have hz : (0 : Float).toModel.unpack = .zero .positive := by rfl
  have h0 : ¬ (x == 0) = true := by
    rw [beq_iff_compare, h, hz]
    cases s <;> decide
  rw [numberText, if_neg h0, exactText, h]

theorem Definite.exists_text (h : Definite x) :
    ∃ s l, numberText x = signed s l ∧ IsMagnitude l ∧ ' ' ∉ l := by
  rcases h with h | h
  · have hplain := Decimal.isPlain_text (Decimal.shortest x)
    exact ⟨sign x, _, numberText_eq h.isFinite, hplain.isMagnitude, hplain.space_notMem⟩
  · obtain ⟨s, h⟩ := isInf_iff.mp h
    exact ⟨s, _, numberText_of_infinity h, ⟨by decide, by simp, by simp⟩, by decide⟩

theorem Definite.space_notMem (h : Definite x) : ' ' ∉ numberText x := by
  obtain ⟨s, l, hx, -, hspace⟩ := h.exists_text
  rw [hx]
  cases s with
  | positive => exact hspace
  | negative => simpa [signed] using hspace

theorem Legible.eq_of_text_eq (hx : Legible x) (hy : Legible y)
    (h : numberText x = numberText y) : x = y := by
  rw [numberText_eq hx.isFinite, numberText_eq hy.isFinite] at h
  have hminus (z : Float) := (Decimal.isPlain_text (Decimal.shortest z)).isMagnitude.ne_minus
  obtain ⟨hs, htext⟩ := signed_inj (hminus x) (hminus y) h
  have hread := Numeral.readFloat_text (Decimal.shortest x)
  rw [htext, Numeral.readFloat_text] at hread
  have habs : y.abs = x.abs := by
    rw [← Decimal.toFloat_shortest hx.isFinite, ← Decimal.toFloat_shortest hy.isFinite]
    exact Except.ok.inj hread
  rw [hx.abs_eq, hy.abs_eq, hs] at habs
  cases hsign : sign y with
  | positive =>
    rw [hsign] at habs
    exact habs.symm
  | negative =>
    rw [hsign] at habs
    rw [← float_neg_neg x, ← float_neg_neg y]
    exact congrArg _ habs.symm

theorem Legible.numberText_ne (hx : Legible x) (s : Float.Model.UnpackedFloat.Sign) :
    numberText x ≠ signed s "inf".toList := by
  intro h
  have hmem : 'i' ∈ numberText x := by
    rw [h]
    cases s <;> simp [signed]
  obtain ⟨hne, hchars⟩ := letterless_numberText hx.isFinite
  exact absurd (hchars 'i' hmem) (by decide)

theorem Definite.eq_of_text_eq (hx : Definite x) (hy : Definite y)
    (h : numberText x = numberText y) : x = y := by
  rcases hx with hx | hx <;> rcases hy with hy | hy
  · exact hx.eq_of_text_eq hy h
  · obtain ⟨s, hy⟩ := isInf_iff.mp hy
    exact absurd (h.trans (numberText_of_infinity hy)) (hx.numberText_ne s)
  · obtain ⟨s, hx⟩ := isInf_iff.mp hx
    exact absurd (h.symm.trans (numberText_of_infinity hx)) (hy.numberText_ne s)
  · obtain ⟨s, hx⟩ := isInf_iff.mp hx
    obtain ⟨s', hy⟩ := isInf_iff.mp hy
    rw [numberText_of_infinity hx, numberText_of_infinity hy] at h
    obtain ⟨rfl, -⟩ := signed_inj (by simp) (by simp) h
    exact unpack_injective (hx.trans hy.symm)

end Display

namespace Term

theorem text_eq (t : Term) :
    t.text = Display.numberText t.coefficient ++ t.power " * ".toList := by
  unfold text power
  dsimp only
  split_ifs <;> simp

theorem takeWhile_text (h : Display.Definite t.coefficient) :
    t.text.takeWhile (· ≠ ' ') = Display.numberText t.coefficient := by
  have hpower : (t.power " * ".toList).takeWhile (· ≠ ' ') = [] := by
    unfold power
    split_ifs <;> simp
  rw [text_eq, List.takeWhile_append_of_pos, hpower, List.append_nil]
  intro c hc
  exact decide_eq_true fun hs => h.space_notMem (hs ▸ hc)

theorem exponent_of_power_eq (h : t.power " * ".toList = u.power " * ".toList) :
    t.exponent = u.exponent := by
  unfold power at h
  split_ifs at h with ht0 hu0 hu1 ht1 hu0 hu1 hu0 hu1
  · exact ht0.trans hu0.symm
  · simp at h
  · simp at h
  · simp at h
  · exact ht1.trans hu1.symm
  · simp at h
  · simp at h
  · simp at h
  · have hdigits : Nat.toDigits 10 t.exponent.toNat = Nat.toDigits 10 u.exponent.toNat := by
      simpa using h
    have hread := Numeral.readCount_toDigits t.exponent
    rw [hdigits, Numeral.readCount_toDigits] at hread
    exact (Except.ok.inj hread).symm

theorem eq_of_text_eq (ht : Display.Definite t.coefficient) (hu : Display.Definite u.coefficient)
    (h : t.text = u.text) : t = u := by
  have hnumber : Display.numberText t.coefficient = Display.numberText u.coefficient := by
    rw [← takeWhile_text ht, ← takeWhile_text hu, h]
  have hpower : t.power " * ".toList = u.power " * ".toList := by
    rw [text_eq, text_eq, hnumber] at h
    exact List.append_cancel_left h
  have hcoefficient := ht.eq_of_text_eq hu hnumber
  have hexponent := exponent_of_power_eq hpower
  cases t
  cases u
  cases hcoefficient
  cases hexponent
  rfl

theorem isSummand_text (h : Display.Definite t.coefficient) : IsSummand t.text := by
  obtain ⟨s, l, hx, hl, -⟩ := h.exists_text
  rw [text_eq, hx]
  refine IsSummand.append ⟨s, l, hl, rfl⟩ (fun c hc => ?_) fun c hc => ?_
  · rcases mem_power hc with hc | rfl | rfl | hc
    · simp at hc
      rcases hc with rfl | rfl | rfl <;> decide
    · decide
    · decide
    · exact ⟨ne_of_isDigit hc rfl, ne_of_isDigit hc rfl⟩
  · rintro rfl
    exact absurd (getLast?_power _ hc).2 (by decide)

theorem eq_of_map_text_eq (ht : ∀ t ∈ ts, Display.Definite t.coefficient)
    (hu : ∀ u ∈ us, Display.Definite u.coefficient) (h : ts.map text = us.map text) : ts = us := by
  induction ts generalizing us with
  | nil => exact (List.map_eq_nil_iff.mp h.symm).symm
  | cons t ts ih =>
    cases us with
    | nil => cases h
    | cons u us =>
      obtain ⟨hhead, htail⟩ := List.cons.inj h
      obtain ⟨ht, hts⟩ := List.forall_mem_cons.mp ht
      obtain ⟨hu, hus⟩ := List.forall_mem_cons.mp hu
      rw [eq_of_text_eq ht hu hhead, ih hts hus htail]

theorem definite_of_isSignificant (h : t.isSignificant = true) :
    Display.Definite t.coefficient := by
  have hle := h
  rw [isSignificant, decide_eq_true_iff] at hle
  rcases kinds t.coefficient with hf | hinf | hnan
  · exact .inl (Display.legible_of_value_ne hf (value_ne_zero hf h))
  · exact .inr (isInf_iff.mpr hinf)
  · exact absurd hle (not_epsilon_le_abs_of_nan hnan).1

end Term

namespace Equation

theorem definite_shown (e : Equation) : ∀ t ∈ e.shown, Display.Definite t.coefficient := by
  intro t ht
  unfold shown at ht
  split_ifs at ht
  · obtain rfl := List.mem_singleton.mp ht
    exact .inl Display.legible_zero
  · exact Term.definite_of_isSignificant (List.mem_filter.mp ht).2

/-- Equations with the same reduced form show the same terms. -/
theorem shown_of_form_eq (h : e.form = e'.form) : e.shown = e'.shown := by
  have htext := congrArg String.toList h
  simp only [form, String.toList_ofList, formText_eq] at htext
  have hsummand (e : Equation) : ∀ s ∈ e.shown.map Term.text, IsSummand s := by
    simpa using fun t ht => Term.isSummand_text (e.definite_shown t ht)
  have h0 (e : Equation) : e.shown.map Term.text ≠ [] := by
    simpa using e.shown_ne_nil
  refine Term.eq_of_map_text_eq e.definite_shown e'.definite_shown ?_
  exact sumText_inj (hsummand e) (hsummand e') (h0 e) (h0 e') (List.append_cancel_right htext)

theorem terms_reduce_of_form_eq (h : e.form = e'.form) : e.reduce.terms = e'.reduce.terms := by
  change e.terms.filter _ = e'.terms.filter _
  rw [← filter_shown e, ← filter_shown e', shown_of_form_eq h]

theorem terms_reduce_reduce (e : Equation) : e.reduce.reduce.terms = e.reduce.terms := by
  simp [reduce]

theorem form_eq_zero_iff : e.form = "0 = 0" ↔ e.reduce.terms = [] := by
  constructor
  · intro h
    have hempty : empty.form = "0 = 0" := rfl
    exact terms_reduce_of_form_eq (h.trans hempty.symm)
  · intro h
    change e.terms.filter Term.isSignificant = [] at h
    rw [form, formText, h]
    rfl

end Equation

end PolyEq
