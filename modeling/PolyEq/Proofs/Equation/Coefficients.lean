import PolyEq.Proofs.Equation.Degree

/-! # Coefficients

The coefficient of a power is that of its only term. After a reduction it is zero or reaches the
tolerance, and the leading one reaches it at every moment.
-/

namespace PolyEq

open Binary64

namespace Term

variable {s t : Term} {terms : List Term}

theorem Ascending.eq_of_exponent_eq (h : Ascending terms) (hs : s ∈ terms) (ht : t ∈ terms)
    (he : s.exponent = t.exponent) : s = t := by
  have hn : (terms.map exponent).Nodup :=
    (List.pairwise_map.mpr h).imp UInt64.ne_of_lt
  exact List.inj_on_of_nodup_map hn hs ht he

instance : Std.Irrefl fun s t : Term => s.exponent < t.exponent :=
  ⟨fun t => UInt64.lt_irrefl t.exponent⟩

instance : Std.Antisymm fun s t : Term => s.exponent < t.exponent :=
  ⟨fun _ _ h h' => absurd h' (UInt64.lt_asymm h)⟩

theorem Ascending.ext {terms' : List Term} (h : Ascending terms) (h' : Ascending terms')
    (hmem : ∀ t, t ∈ terms ↔ t ∈ terms') : terms = terms' :=
  List.Pairwise.eq_of_mem_iff h h' hmem

end Term

namespace Equation

variable {e : Equation} {t : Term} {n : UInt64}

theorem coefficient_of_mem (ht : t ∈ e.terms) : e.coefficient t.exponent = t.coefficient := by
  unfold coefficient
  cases h : e.terms.find? (·.exponent == t.exponent) with
  | none => simpa using List.find?_eq_none.mp h t ht
  | some s =>
    have hs := List.find?_some h
    rw [e.ascending.eq_of_exponent_eq (List.mem_of_find?_eq_some h) ht (by simpa using hs)]
    rfl

theorem coefficient_eq_zero_or (e : Equation) (n : UInt64) :
    e.coefficient n = 0 ∨ ∃ t ∈ e.terms, t.exponent = n ∧ e.coefficient n = t.coefficient := by
  cases h : e.terms.find? (·.exponent == n) with
  | none => exact .inl (by simp [coefficient, h])
  | some t =>
    have hn : t.exponent = n := by simpa using List.find?_some h
    have ht := List.mem_of_find?_eq_some h
    exact .inr ⟨t, ht, hn, hn ▸ coefficient_of_mem ht⟩

theorem coefficient_reduce (e : Equation) (n : UInt64) :
    e.reduce.coefficient n = 0 ∨ epsilon ≤ (e.reduce.coefficient n).abs := by
  obtain h | ⟨t, ht, -, h⟩ := e.reduce.coefficient_eq_zero_or n
  · exact .inl h
  · have hs := (List.mem_filter.mp ht).2
    rw [Term.isSignificant, decide_eq_true_iff] at hs
    exact .inr (h ▸ hs)

theorem legible_coefficient (h : (e.reduce.coefficient n).isFinite = true) :
    Display.Legible (e.reduce.coefficient n) := by
  obtain h0 | hle := e.coefficient_reduce n
  · rw [h0]
    exact Display.legible_zero
  · refine Display.legible_of_value_ne h fun hv => ?_
    rw [denotes_epsilon.le_iff (denotes_value h).abs, hv, abs_zero] at hle
    exact tolerance_pos.not_ge hle

theorem coefficient_of_degree_lt (h : e.reduce.degree < n) : e.reduce.coefficient n = 0 := by
  obtain h0 | ⟨t, ht, rfl, -⟩ := e.reduce.coefficient_eq_zero_or n
  · exact h0
  · exact absurd (e.reduce.ascending.le_lastExponent ht) (UInt64.not_le.mpr h)

theorem terms_reduce_eq_filter (ns : List UInt64) (hns : ns.Pairwise (· < ·))
    (h : ∀ t ∈ e.reduce.terms, t.exponent ∈ ns) : e.reduce.terms =
      (ns.map fun n => ⟨e.reduce.coefficient n, n⟩).filter Term.isSignificant := by
  have hasc : Term.Ascending (ns.map fun n => ⟨e.reduce.coefficient n, n⟩) :=
    List.pairwise_map.mpr hns
  refine e.reduce.ascending.ext (hasc.filter _) fun t => ?_
  rw [List.mem_filter, List.mem_map]
  constructor
  · intro ht
    exact ⟨⟨t.exponent, h t ht, by rw [coefficient_of_mem ht]⟩, (List.mem_filter.mp ht).2⟩
  · rintro ⟨⟨n, -, rfl⟩, hs⟩
    obtain h0 | ⟨t, ht, rfl, hc⟩ := e.reduce.coefficient_eq_zero_or n
    · rw [Term.not_isSignificant (by rw [h0]; exact denotes_zero)] at hs
      cases hs
    · rw [hc]
      exact ht

theorem DegreeAttained.epsilon_le (h : e.DegreeAttained) (h0 : e.degree ≠ 0) :
    epsilon ≤ (e.coefficient e.degree).abs := by
  obtain ⟨t, ht, hs, he⟩ := h.resolve_left h0
  rw [← he, coefficient_of_mem ht]
  rwa [Term.isSignificant, decide_eq_true_iff] at hs

end Equation

end PolyEq
