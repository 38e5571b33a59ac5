import PolyEq.Proofs.IntegerLike

/-! # Opposite floats

Rounding is symmetric in the sign, so an operation on opposite floats gives the same result or the
opposite one. Only the sign of a zero may differ. Results that are not finite are told apart by
`Alike`, but not by `Same` and `Opposite`.
-/

namespace PolyEq.Binary64

open Float.Model Float.Model.UnpackedFloat

def Alike (x y : Float) : Prop :=
  x = y ∨ Denotes x 0 ∧ Denotes y 0

/-- Two finite floats of one value, or two floats that are not finite. -/
structure Same (x y : Float) : Prop where
  isFinite_eq : x.isFinite = y.isFinite
  value_eq : value x = value y

/-- Two finite floats of opposite values, or two floats that are not finite. -/
structure Opposite (x y : Float) : Prop where
  isFinite_eq : x.isFinite = y.isFinite
  value_eq : value y = -value x

variable {x y z x' y' : Float} {q : ℚ}

theorem value_of_not_isFinite (h : x.isFinite = false) : value x = 0 := by
  rcases kinds x with hx | ⟨s, hu⟩ | hu
  · rw [h] at hx
    cases hx
  · rw [value, hu]
    rfl
  · rw [value, hu]
    rfl

theorem Alike.same (h : Alike x y) : Same x y := by
  rcases h with rfl | ⟨hx, hy⟩
  · exact ⟨rfl, rfl⟩
  · exact ⟨hx.isFinite.trans hy.isFinite.symm, hx.value_eq.trans hy.value_eq.symm⟩

theorem Alike.opposite (h : Alike (-x) y) : Opposite x y :=
  ⟨by simpa using h.same.isFinite_eq, by simpa using h.same.value_eq.symm⟩

theorem abs_neg_float (x : Float) : (-x).abs = x.abs := by
  apply unpack_injective
  dsimp only
  rw [unpack_abs, unpack_abs, unpack_neg]
  cases x.toModel.unpack <;> rfl

theorem unpack_eq_zero (h : Denotes x 0) : ∃ s, x.toModel.unpack = .zero s := by
  obtain ⟨s, hu, -⟩ | ⟨s, m, e, hm, -, -, -, hv⟩ := finite_cases h.isFinite
  · exact ⟨s, hu⟩
  · have h0 : signed s (m * 2 ^ e) = 0 := hv.symm.trans h.value_eq
    rw [← abs_eq_zero, abs_signed, abs_eq_zero] at h0
    exact absurd h0 (by positivity)

theorem abs_of_zero (h : Denotes x 0) : x.abs = 0 := by
  obtain ⟨s, hu⟩ := unpack_eq_zero h
  apply unpack_injective
  dsimp only
  rw [unpack_abs, hu]
  rfl

/-- The magnitude does not depend on the sign, not even that of a zero. -/
theorem Alike.abs_eq (h : Alike (-x) y) : x.abs = y.abs := by
  rcases h with rfl | ⟨hx, hy⟩
  · exact (abs_neg_float x).symm
  · rw [← abs_neg_float, abs_of_zero hx, abs_of_zero hy]

theorem Rounds.neg (h : Rounds x q) : Rounds (-x) (-q) := by
  cases h with
  | finite hx hv => exact .finite (by rwa [isFinite_neg]) (by rw [value_neg, hv, nearest_neg])
  | overflow s hu hpos hle =>
    refine .overflow (-s) (by rw [unpack_neg, hu]; rfl) ?_ (by rwa [nearest_neg, abs_neg])
    cases s
    · exact hpos
    · simpa [signed] using hpos

theorem Rounds.alike (hx : Rounds x q) (hy : Rounds y q) : Alike x y := by
  cases hx with
  | finite hx hv =>
    have hy := hy.denotes_of_lt (hv ▸ abs_value_lt x)
    rcases eq_or_ne (nearest q) 0 with h0 | h0
    · rw [h0] at hv hy
      exact .inr ⟨⟨hx, hv⟩, hy⟩
    · exact .inl ((Denotes.mk hx hv).eq hy rfl h0)
  | overflow s hu hpos hle =>
    cases hy with
    | finite hy hv => exact absurd (hv ▸ abs_value_lt y) (not_lt.mpr hle)
    | overflow t hu' hpos' _ =>
      refine .inl (unpack_injective ?_)
      dsimp only
      rw [hu, hu']
      cases s <;> cases t <;> first | rfl | (simp only [signed] at hpos hpos'; linarith)

namespace Same

theorem refl (x : Float) : Same x x :=
  ⟨rfl, rfl⟩

theorem denotes (h : Same x y) (hx : Denotes x q) : Denotes y q :=
  ⟨h.isFinite_eq ▸ hx.isFinite, h.value_eq ▸ hx.value_eq⟩

theorem beq (h : Same x y) (hx : x.isFinite = true) : (x == y) = true :=
  (beq_iff hx (h.isFinite_eq ▸ hx)).mpr h.value_eq

theorem of_not_isFinite (hx : x.isFinite = false) (hy : y.isFinite = false) : Same x y :=
  ⟨hx.trans hy.symm, (value_of_not_isFinite hx).trans (value_of_not_isFinite hy).symm⟩

theorem toInteger?_eq (h : Same x y) : toInteger? x = toInteger? y := by
  cases hx : x.isFinite with
  | false =>
    have hy := h.isFinite_eq.symm.trans hx
    simp [toInteger?, isIntegerLike, hx, hy]
  | true =>
    have hd := denotes_value hx
    ext n
    rw [toInteger?_eq_some_iff hd, toInteger?_eq_some_iff (h.denotes hd)]

theorem isNegligible_eq (h : Same x y) : isNegligible x = isNegligible y := by
  cases hx : x.isFinite with
  | false =>
    have hy := h.isFinite_eq.symm.trans hx
    rw [Bool.eq_false_iff.mpr fun hn => Bool.eq_false_iff.mp hx (isFinite_of_isNegligible hn),
      Bool.eq_false_iff.mpr fun hn => Bool.eq_false_iff.mp hy (isFinite_of_isNegligible hn)]
  | true =>
    have hd := denotes_value hx
    rw [Bool.eq_iff_iff, isNegligible_iff hd, isNegligible_iff (h.denotes hd)]

end Same

namespace Opposite

theorem of_not_isFinite (hx : x.isFinite = false) (hy : y.isFinite = false) : Opposite x y := by
  refine ⟨hx.trans hy.symm, ?_⟩
  rw [value_of_not_isFinite hx, value_of_not_isFinite hy, neg_zero]

variable (h : Opposite x y)
include h

theorem denotes (hx : Denotes x q) : Denotes y (-q) :=
  ⟨h.isFinite_eq ▸ hx.isFinite, by rw [h.value_eq, hx.value_eq]⟩

theorem same_neg : Same (-x) y :=
  ⟨by simpa using h.isFinite_eq, by simpa using h.value_eq.symm⟩

theorem neg : Opposite (-x) (-y) :=
  ⟨by simpa using h.isFinite_eq, by rw [value_neg, value_neg, h.value_eq]⟩

theorem same_abs : Same x.abs y.abs :=
  ⟨by simpa using h.isFinite_eq, by rw [value_abs, value_abs, h.value_eq, abs_neg]⟩

theorem toInteger?_eq : toInteger? y = (toInteger? x).map Neg.neg := by
  rw [← h.same_neg.toInteger?_eq, toInteger?_neg]

theorem isNegligible_eq : isNegligible x = isNegligible y := by
  rw [← h.same_neg.isNegligible_eq, isNegligible, isNegligible, abs_neg_float]

end Opposite

/-- `op` is the operation `f` rounded. Its result is finite only if both operands are. -/
structure Lifts (op : Float → Float → Float) (f : ℚ → ℚ → ℚ) : Prop where
  rounds {x y : Float} {p q : ℚ} : Denotes x p → Denotes y q → Rounds (op x y) (f p q)
  isFinite {x y : Float} : (op x y).isFinite = true → x.isFinite = true ∧ y.isFinite = true

theorem lifts_add : Lifts (· + ·) (· + ·) :=
  ⟨Denotes.rounds_add, isFinite_of_add⟩

theorem lifts_sub : Lifts (· - ·) (· - ·) :=
  ⟨Denotes.rounds_sub, isFinite_of_sub⟩

theorem lifts_mul : Lifts (· * ·) (· * ·) :=
  ⟨Denotes.rounds_mul, isFinite_of_mul⟩

namespace Lifts

variable {op : Float → Float → Float} {f : ℚ → ℚ → ℚ} (h : Lifts op f)
include h

theorem rounds_or (hx : x.isFinite = x'.isFinite) (hy : y.isFinite = y'.isFinite) :
    Rounds (op x y) (f (value x) (value y)) ∧ Rounds (op x' y') (f (value x') (value y')) ∨
      (op x y).isFinite = false ∧ (op x' y').isFinite = false := by
  by_cases hf : x.isFinite = true ∧ y.isFinite = true
  · have hf' := hf
    rw [hx, hy] at hf'
    exact .inl ⟨h.rounds (denotes_value hf.1) (denotes_value hf.2),
      h.rounds (denotes_value hf'.1) (denotes_value hf'.2)⟩
  · have hf' := hf
    rw [hx, hy] at hf'
    exact .inr ⟨Bool.eq_false_iff.mpr (mt h.isFinite hf),
      Bool.eq_false_iff.mpr (mt h.isFinite hf')⟩

theorem same (hx : x.isFinite = x'.isFinite) (hy : y.isFinite = y'.isFinite)
    (hq : f (value x') (value y') = f (value x) (value y)) : Same (op x y) (op x' y') := by
  rcases h.rounds_or hx hy with ⟨hr, hr'⟩ | ⟨hn, hn'⟩
  · exact (hr.alike (hq ▸ hr')).same
  · exact .of_not_isFinite hn hn'

theorem opposite (hx : x.isFinite = x'.isFinite) (hy : y.isFinite = y'.isFinite)
    (hq : f (value x') (value y') = -f (value x) (value y)) :
    Opposite (op x y) (op x' y') := by
  rcases h.rounds_or hx hy with ⟨hr, hr'⟩ | ⟨hn, hn'⟩
  · exact (hr.neg.alike (hq ▸ hr')).opposite
  · exact .of_not_isFinite hn hn'

end Lifts

theorem add_of_not_isFinite (hx : x.isFinite = true) (hy : y.isFinite = false) :
    x + y = y ∧ y + x = y := by
  have hpack := pack_unpack_toModel y
  rw [add_eq, add_eq]
  rcases kinds y with hf | hf
  · rw [hy] at hf
    cases hf
  · rcases hf with ⟨s, hv⟩ | hv <;> rw [hv] at hpack ⊢ <;>
      obtain ⟨t, hu, -⟩ | ⟨t, m, e, hm, hu, -⟩ := finite_cases hx <;> rw [hu] <;>
      exact ⟨hpack, hpack⟩

theorem neg_add_of_not_isFinite (h : ¬ (x.isFinite = true ∧ y.isFinite = true)) :
    -x + -y = -(x + y) := by
  rcases kinds x with hx | hx
  · have hy : y.isFinite = false := by simpa [hx] using h
    rw [(add_of_not_isFinite hx hy).1, (add_of_not_isFinite (by simpa) (by simpa)).1]
  · rcases kinds y with hy | hy
    · have hx : x.isFinite = false := by simpa [hy] using h
      rw [(add_of_not_isFinite hy hx).2, (add_of_not_isFinite (by simpa) (by simpa)).2]
    · apply unpack_injective
      dsimp only
      rw [unpack_neg, add_eq, add_eq, unpack_neg, unpack_neg, unpack_toModel_ofModel,
        unpack_toModel_ofModel]
      rcases hx with ⟨s, hu⟩ | hu <;> rcases hy with ⟨t, hv⟩ | hv <;> rw [hu, hv]
      · cases s <;> cases t <;> rfl
      · cases s <;> rfl
      · cases t <;> rfl
      · rfl

theorem add_congr_left (h : Alike x y) (hz : ¬ (x.isFinite = true ∧ z.isFinite = true)) :
    x + z = y + z ∧ z + x = z + y := by
  rcases h with rfl | ⟨hx, hy⟩
  · exact ⟨rfl, rfl⟩
  · have hz : z.isFinite = false := by simpa [hx.isFinite] using hz
    obtain ⟨h₁, h₂⟩ := add_of_not_isFinite hx.isFinite hz
    obtain ⟨h₃, h₄⟩ := add_of_not_isFinite hy.isFinite hz
    exact ⟨h₁.trans h₃.symm, h₂.trans h₄.symm⟩

theorem Alike.opposite_add (hx : Alike (-x) x') (hy : Alike (-y) y') :
    Alike (-(x + y)) (x' + y') := by
  by_cases hf : x.isFinite = true ∧ y.isFinite = true
  · have hd := denotes_value hf.1
    have hd' := denotes_value hf.2
    have hr := (hx.opposite.denotes hd).rounds_add (hy.opposite.denotes hd')
    rw [← neg_add] at hr
    exact (hd.rounds_add hd').neg.alike hr
  · have hf' := hf
    rw [← isFinite_neg x, ← isFinite_neg y] at hf'
    have hf'' := hf'
    rw [hx.same.isFinite_eq, and_comm] at hf''
    rw [← neg_add_of_not_isFinite hf, (add_congr_left hx hf').1, (add_congr_left hy hf'').2]
    exact .inl rfl

theorem value_ne_zero_of_div (hy : y.isFinite = true) (h : (x / y).isFinite = true) :
    value y ≠ 0 := by
  intro h0
  obtain ⟨s, hu⟩ := unpack_eq_zero ⟨hy, h0⟩
  rw [div_eq, isFinite_ofModel_pack, hu] at h
  cases hx : x.toModel.unpack <;> rw [hx] at h <;>
    simp_all [UnpackedFloat.div, UnpackedFloat.isFinite]

theorem operands_of_isFinite_div (hy : y.isFinite = true) (h : (x / y).isFinite = true) :
    x.isFinite = true ∧ value y ≠ 0 :=
  ⟨isFinite_of_div h, value_ne_zero_of_div hy h⟩

theorem rounds_div_or (hx : x.isFinite = x'.isFinite) (hy : Opposite y y')
    (hf : y.isFinite = true) :
    Rounds (x / y) (value x / value y) ∧ Rounds (x' / y') (value x' / -value y) ∨
      (x / y).isFinite = false ∧ (x' / y').isFinite = false := by
  have hf' : y'.isFinite = true := hy.isFinite_eq.symm.trans hf
  have h0 : value y' ≠ 0 ↔ value y ≠ 0 := by rw [hy.value_eq, neg_ne_zero]
  by_cases h : x.isFinite = true ∧ value y ≠ 0
  · refine .inl ⟨rounds_div h.1 hf h.2, ?_⟩
    rw [← hy.value_eq]
    exact rounds_div (hx.symm.trans h.1) hf' (h0.mpr h.2)
  · refine .inr ⟨Bool.eq_false_iff.mpr (mt (operands_of_isFinite_div hf) h),
      Bool.eq_false_iff.mpr (mt (operands_of_isFinite_div hf') ?_)⟩
    rwa [← hx, h0]

theorem Opposite.same_div (hx : Opposite x x') (hy : Opposite y y') (hf : y.isFinite = true) :
    Same (x / y) (x' / y') := by
  rcases rounds_div_or hx.isFinite_eq hy hf with ⟨hr, hr'⟩ | ⟨hn, hn'⟩
  · rw [hx.value_eq, neg_div_neg_eq] at hr'
    exact (hr.alike hr').same
  · exact .of_not_isFinite hn hn'

theorem Same.opposite_div (hx : Same x x') (hy : Opposite y y') (hf : y.isFinite = true) :
    Opposite (x / y) (x' / y') := by
  rcases rounds_div_or hx.isFinite_eq hy hf with ⟨hr, hr'⟩ | ⟨hn, hn'⟩
  · rw [← hx.value_eq, div_neg] at hr'
    exact (hr.neg.alike hr').opposite
  · exact .of_not_isFinite hn hn'

end PolyEq.Binary64
