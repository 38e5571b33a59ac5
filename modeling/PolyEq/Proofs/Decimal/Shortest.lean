import PolyEq.Proofs.Decimal.RoundTrip

/-! # The places of the shortest decimal

If any decimal with so many places reads back as a float, its shortest decimal has no more of them.
The search comes to a grid with these places, and as rounding is monotone, one of the two points of
the grid beside the float reads back if any other point does.
-/

namespace PolyEq

open Binary64

namespace Decimal

variable {x : Float} {q : ℚ} {d : Decimal} {g : ℤ} {i n k p N : ℕ}

def toRat (d : Decimal) : ℚ :=
  d.digits / 10 ^ d.places

theorem rounds_toFloat (d : Decimal) : Rounds d.toFloat d.toRat := by
  have h := rounds_nearestFloat d.digits (-(d.places : ℤ))
  rwa [zpow_neg, zpow_natCast, ← div_eq_mul_inv] at h

theorem toFloat_eq (hx : Denotes x q) (h0 : q ≠ 0) (h : nearest d.toRat = q) : d.toFloat = x := by
  have hlt : |nearest d.toRat| < 2 ^ (1024 : ℤ) := by
    rw [h, ← hx.value_eq]
    exact abs_value_lt x
  have hd := d.rounds_toFloat.denotes_of_lt hlt
  rw [h] at hd
  exact hd.eq hx rfl h0

theorem ten_zpow_eq (g : ℤ) : (10 : ℚ) ^ g = 10 ^ g.toNat / 10 ^ (-g).toNat := by
  rw [← zpow_natCast, ← zpow_natCast, ← zpow_sub₀ (by norm_num)]
  congr 1
  omega

theorem toRat_onGrid (g : ℤ) (i : ℕ) : (onGrid g i).toRat = i * 10 ^ g := by
  rw [ten_zpow_eq, toRat, onGrid, tenPow, Nat.pow_eq, ← mul_div_assoc]
  push_cast
  rfl

theorem lower_bounds (hk : i = n * tenPow (-g).toNat / ((1 <<< k) * tenPow g.toNat)) :
    (i : ℚ) * 10 ^ g ≤ n / 2 ^ k ∧ (n : ℚ) / 2 ^ k ≤ (i + 1 : ℕ) * 10 ^ g := by
  have hunit : 0 < (1 <<< k) * tenPow g.toNat := by
    rw [Nat.one_shiftLeft, tenPow, Nat.pow_eq]
    positivity
  have hlo : i * ((1 <<< k) * tenPow g.toNat) ≤ n * tenPow (-g).toNat := by
    rw [hk]
    exact Nat.div_mul_le_self _ _
  have hhi : n * tenPow (-g).toNat ≤ (1 <<< k) * tenPow g.toNat * (i + 1) := by
    rw [hk]
    exact (Nat.lt_mul_div_succ _ hunit).le
  rw [Nat.one_shiftLeft, tenPow, tenPow, Nat.pow_eq, Nat.pow_eq] at hlo hhi
  have hlo' : (i : ℚ) * (2 ^ k * 10 ^ g.toNat) ≤ n * 10 ^ (-g).toNat := by exact_mod_cast hlo
  have hhi' : (n : ℚ) * 10 ^ (-g).toNat ≤ 2 ^ k * 10 ^ g.toNat * (i + 1 : ℕ) := by
    exact_mod_cast hhi
  rw [ten_zpow_eq, ← mul_div_assoc, ← mul_div_assoc]
  constructor
  · rw [div_le_div_iff₀ (by positivity) (by positivity)]
    linarith
  · rw [div_le_div_iff₀ (by positivity) (by positivity)]
    linarith

theorem mem_neighbours_iff : d ∈ neighbours n k g ↔
    d = onGrid g (n * tenPow (-g).toNat / (k * tenPow g.toNat)) ∨
      d = onGrid g (n * tenPow (-g).toNat / (k * tenPow g.toNat) + 1) := by
  unfold neighbours
  dsimp only
  split_ifs
  · simp only [List.mem_cons, List.not_mem_nil, or_false]
  · simp only [List.mem_cons, List.not_mem_nil, or_false]
    exact or_comm

theorem places_of_mem_neighbours (h : d ∈ neighbours n k g) : d.places = (-g).toNat := by
  rcases mem_neighbours_iff.mp h with rfl | rfl <;> rfl

theorem nearest_eq_of_between {a b c r : ℚ} (ha : nearest a = r) (hb : nearest b = r)
    (hac : a ≤ c) (hcb : c ≤ b) : nearest c = r := by
  apply le_antisymm
  · exact (nearest_mono hcb).trans_eq hb
  · exact ha.symm.trans_le (nearest_mono hac)

/-- If a point of the grid reads back, so does one of the two beside the float. -/
theorem exists_mem_neighbours (hx : Denotes x (n / 2 ^ k)) (h0 : 0 < n)
    (hN : nearest (N * 10 ^ g) = n / 2 ^ k) : ∃ d ∈ neighbours n (1 <<< k) g, d.toFloat = x := by
  have hq : (n : ℚ) / 2 ^ k ≠ 0 := by positivity
  have hg : (0 : ℚ) < 10 ^ g := by positivity
  have hself := nearest_of_representable hx.representable
  obtain ⟨hlo, hhi⟩ := lower_bounds (i := n * tenPow (-g).toNat / ((1 <<< k) * tenPow g.toNat)) rfl
  generalize hi : n * tenPow (-g).toNat / ((1 <<< k) * tenPow g.toNat) = i at hlo hhi
  rcases Nat.lt_or_ge i N with hlt | hge
  · have hle : ((i + 1 : ℕ) : ℚ) * 10 ^ g ≤ N * 10 ^ g := by
      gcongr
      exact hlt
    refine ⟨onGrid g (i + 1), mem_neighbours_iff.mpr (.inr (by rw [hi])), toFloat_eq hx hq ?_⟩
    rw [toRat_onGrid]
    exact nearest_eq_of_between hself hN hhi hle
  · have hle : (N : ℚ) * 10 ^ g ≤ i * 10 ^ g := by gcongr
    refine ⟨onGrid g i, mem_neighbours_iff.mpr (.inl (by rw [hi])), toFloat_eq hx hq ?_⟩
    rw [toRat_onGrid]
    exact nearest_eq_of_between hN hself hle hlo

theorem lt_ten_pow_length (n : ℕ) : n < 10 ^ (Nat.toDigits 10 n).length :=
  (Nat.length_toDigits_le_iff (by decide) (List.length_pos_iff.mpr Nat.toDigits_ne_nil)).mp le_rfl

theorem ten_pow_length_le (h : 0 < n) : 10 ^ ((Nat.toDigits 10 n).length - 1) ≤ n := by
  rcases Nat.eq_zero_or_pos ((Nat.toDigits 10 n).length - 1) with hw | hw
  · rw [hw]
    exact h
  · apply not_lt.mp
    rw [← Nat.length_toDigits_le_iff (by decide) hw]
    omega

def coarsest (n k : ℕ) : ℤ :=
  (Nat.toDigits 10 n).length - (Nat.toDigits 10 (1 <<< k)).length + 1

theorem lt_coarsest (n k : ℕ) : (n : ℚ) / 2 ^ k < 10 ^ coarsest n k := by
  have hpos : 0 < (Nat.toDigits 10 (1 <<< k)).length := List.length_pos_iff.mpr Nat.toDigits_ne_nil
  have hn : (n : ℚ) < 10 ^ (Nat.toDigits 10 n).length := by exact_mod_cast lt_ten_pow_length n
  have hk : (10 : ℚ) ^ ((Nat.toDigits 10 (1 <<< k)).length - 1) ≤ 2 ^ k := by
    have h := ten_pow_length_le (n := 1 <<< k) (by rw [Nat.one_shiftLeft]; positivity)
    rw [Nat.one_shiftLeft] at h ⊢
    exact_mod_cast h
  calc (n : ℚ) / 2 ^ k < (10 : ℚ) ^ (Nat.toDigits 10 n).length / 2 ^ k := by gcongr
    _ ≤ (10 : ℚ) ^ (Nat.toDigits 10 n).length /
        (10 : ℚ) ^ ((Nat.toDigits 10 (1 <<< k)).length - 1) := by gcongr
    _ = 10 ^ coarsest n k := by
      rw [← zpow_natCast, ← zpow_natCast, ← zpow_sub₀ (by norm_num), coarsest]
      congr 1
      omega

theorem mem_grids_iff : g ∈ grids n k ↔ -(k : ℤ) ≤ g ∧ g ≤ coarsest n k := by
  unfold grids
  change g ∈ (List.range (coarsest n k + k + 1).toNat).map (fun i : ℕ => coarsest n k - i) ↔ _
  rw [List.mem_map]
  constructor
  · rintro ⟨i, hi, rfl⟩
    rw [List.mem_range] at hi
    omega
  · rintro ⟨hlo, hhi⟩
    exact ⟨(coarsest n k - g).toNat, List.mem_range.mpr (by omega), by omega⟩

theorem pairwise_grids (n k : ℕ) : (grids n k).Pairwise (· > ·) := by
  unfold grids
  refine List.pairwise_map.mpr (List.pairwise_lt_range.imp fun h => ?_)
  omega

theorem exists_grid_of_findSome? {f : ℤ → Option Decimal}
    (h : (grids n k).findSome? f = some d) :
    ∃ g ∈ grids n k, f g = some d ∧ ∀ g' ∈ grids n k, f g' ≠ none → g' ≤ g := by
  obtain ⟨coarser, g, finer, hgrids, hd, hnone⟩ := List.findSome?_eq_some_iff.mp h
  have hpair := pairwise_grids n k
  rw [hgrids, List.pairwise_append, List.pairwise_cons] at hpair
  refine ⟨g, by simp [hgrids], hd, ?_⟩
  intro g' hg' hsome
  rw [hgrids, List.mem_append, List.mem_cons] at hg'
  rcases hg' with hcoarser | rfl | hfiner
  · exact absurd (hnone g' hcoarser) hsome
  · exact le_rfl
  · exact (hpair.2.1.1 g' hfiner).le

theorem neg_le_coarsest (hx : Denotes x (n / 2 ^ k)) (h0 : 0 < n)
    (hN : nearest (N * 10 ^ (-p : ℤ)) = n / 2 ^ k) : -(p : ℤ) ≤ coarsest n k := by
  by_contra hlt
  have hq : (0 : ℚ) < n / 2 ^ k := by positivity
  have hp : (0 : ℚ) < 10 ^ (-p : ℤ) := by positivity
  have hNpos : 0 < N := by
    rcases Nat.eq_zero_or_pos N with rfl | h
    · rw [Nat.cast_zero, zero_mul, nearest_zero] at hN
      exact absurd hN hq.ne
    · exact h
  have hsmall : 10 * ((n : ℚ) / 2 ^ k) < 10 ^ (-p : ℤ) :=
    calc 10 * ((n : ℚ) / 2 ^ k) < 10 * 10 ^ coarsest n k := by
          gcongr
          exact lt_coarsest n k
      _ = 10 ^ (coarsest n k + 1) := by rw [zpow_add_one₀ (by norm_num), mul_comm]
      _ ≤ 10 ^ (-p : ℤ) := zpow_le_zpow_right₀ (by norm_num) (by omega)
  have hlarge : (10 : ℚ) ^ (-p : ℤ) ≤ N * 10 ^ (-p : ℤ) :=
    le_mul_of_one_le_left hp.le (by exact_mod_cast hNpos)
  -- twice the float would be nearer
  have hnear := hx.representable.two_mul.abs_nearest_sub_le (N * 10 ^ (-p : ℤ))
  rw [hN, abs_of_neg (by linarith), abs_of_neg (by linarith)] at hnear
  linarith

theorem places_shortestOf_le (hx : Denotes x (n / 2 ^ k)) (h0 : 0 < n)
    (hN : nearest (N * 10 ^ (-p : ℤ)) = n / 2 ^ k) : (shortestOf x n k).places ≤ p := by
  have hcoarsest := neg_le_coarsest hx h0 hN
  -- a grid finer than the exact value is not searched, and not needed
  have hsome : p < k → (-p : ℤ) ∈ grids n k ∧
      (neighbours n (1 <<< k) (-p)).find? (fun d => d.toFloat.toBits == x.toBits) ≠ none := by
    intro hlt
    obtain ⟨d, hd, rfl⟩ := exists_mem_neighbours hx h0 hN
    refine ⟨mem_grids_iff.mpr ⟨by omega, hcoarsest⟩, fun hnone => ?_⟩
    exact List.find?_eq_none.mp hnone d hd (beq_self_eq_true _)
  unfold shortestOf
  cases hs : (grids n k).findSome? fun grid =>
      (neighbours n (1 <<< k) grid).find? fun d => d.toFloat.toBits == x.toBits with
  | none =>
    apply not_lt.mp
    intro hlt
    exact (hsome hlt).2 (List.findSome?_eq_none_iff.mp hs _ (hsome hlt).1)
  | some d =>
    obtain ⟨g, hg, hd, hle⟩ := exists_grid_of_findSome? hs
    have hfinest := (mem_grids_iff.mp hg).1
    rw [Option.getD_some, places_of_mem_neighbours (List.mem_of_find?_eq_some hd)]
    rcases Nat.lt_or_ge p k with hlt | hge
    · have := hle _ (hsome hlt).1 (hsome hlt).2
      omega
    · omega

/-- The shortest decimal of a float has no more places than any decimal that reads back as its
magnitude. -/
theorem places_shortest_le (hx : x.isFinite = true)
    (hN : nearest (N * 10 ^ (-p : ℤ)) = |value x|) : (shortest x).places ≤ p := by
  obtain ⟨s, hu, -⟩ | ⟨s, m, e, hm, hu, -, -, hv⟩ := finite_cases hx
  · rw [shortest_of_zero hu]
    exact Nat.zero_le p
  · obtain ⟨n, k, hn, hd, heq⟩ := exists_shortest_eq hx hu hv
    rw [← value_abs, hd.value_eq] at hN
    rw [heq]
    exact places_shortestOf_le hd hn hN

end Decimal

end PolyEq
