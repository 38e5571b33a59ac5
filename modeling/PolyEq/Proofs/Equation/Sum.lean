import PolyEq.Proofs.Equation.Sides

/-! # Sums of sides

Two texts that are read as sides on their own are read as one side around a plus sign. Its terms
are those of the first text and then those of the second.
-/

namespace PolyEq

open Spacing

variable {l m r : List Char} {side : Side} {ls ms : List Term}

structure IsSideText (text : List Char) : Prop extends IsTrimmed text where
  ne_nil : text ≠ []
  equals_notMem : '=' ∉ text

theorem IsSideText.sum (hl : IsSideText l) (hm : IsSideText m) :
    IsSideText (l ++ " + ".toList ++ m) where
  head c hc := hl.head c (by rwa [List.append_assoc, List.head?_append_of_ne_nil _ hl.ne_nil] at hc)
  last c hc := hm.last c (by rwa [List.getLast?_append_of_ne_nil _ hm.ne_nil] at hc)
  ne_nil := by simp
  equals_notMem := by simp [hl.equals_notMem, hm.equals_notMem]

/-- A plus sign joins two sides into one, unless the second begins with another plus sign. -/
theorem result_readSide_sum (hl : IsSideText l) (hm : IsSideText m) (hplus : m.head? ≠ some '+')
    (hls : (readSide side l).result = .ok ls) (hms : (readSide side m).result = .ok ms) :
    (readSide side (l ++ " + ".toList ++ m)).result = .ok (ls ++ ms) := by
  rw [result_readSide_eq_ok_iff] at hls hms ⊢
  obtain ⟨hlast, hpl, hl0, lreads, hlreads, rfl⟩ := hls
  obtain ⟨hlast', hpm, hm0, mreads, hmreads, rfl⟩ := hms
  rw [tighten_sum hl.toIsTrimmed hm.toIsTrimmed hl.ne_nil hm.ne_nil, fragments_sum]
  refine ⟨?_, not_hasConsecutivePlus_sum hpl hpm ?_ ?_, by simp [hl0], lreads ++ mreads, ?_, ?_⟩
  · refine forall_getLast?_append hlast (forall_getLast?_cons hlast' ?_)
    intro hnil
    exact hm0 (by rw [hnil]; rfl)
  · intro h
    exact absurd (hlast _ h) (by decide)
  · rwa [head?_tighten hm.head]
  · rw [readFragments_append hlreads, hmreads]
  · rw [List.map_append]

theorem splitSides_spaced_eq_ok_iff {sides : List Char × List Char} (hl : IsTrimmed l)
    (hr : IsTrimmed r) : splitSides (l ++ " = ".toList ++ r) = .ok sides ↔
      (IsSideText l ∧ IsSideText r) ∧ sides = (l, r) := by
  have htext : l ++ " = ".toList ++ r = (l ++ [' ']) ++ '=' :: (' ' :: r) := by simp
  rw [htext]
  by_cases hcount : '=' ∉ l ∧ '=' ∉ r
  · rw [splitSides_append (by simp [hcount.1]) (by simp [hcount.2]), hl.trim_append_space,
      hr.trim_cons_space]
    split_ifs with hl0 hr0
    · exact iff_of_false (by simp) fun h => h.1.1.ne_nil hl0
    · exact iff_of_false (by simp) fun h => h.1.2.ne_nil hr0
    · have hside : IsSideText l ∧ IsSideText r := ⟨⟨hl, hl0, hcount.1⟩, ⟨hr, hr0, hcount.2⟩⟩
      rw [Except.ok.injEq, and_iff_right hside, eq_comm]
  · have hcount' : ((l ++ [' ']) ++ '=' :: (' ' :: r)).count '=' ≠ 1 := by
      intro h
      have hsum : l.count '=' + (r.count '=' + 1) = 1 := by simpa using h
      refine hcount ⟨List.count_eq_zero.mp ?_, List.count_eq_zero.mp ?_⟩ <;> omega
    rw [splitSides_of_count hcount']
    exact iff_of_false (by simp) fun h => hcount ⟨h.1.1.equals_notMem, h.1.2.equals_notMem⟩

namespace Equation

variable {e e' : Equation}

theorem readText_spaced_eq_ok_iff (hl : IsTrimmed l) (hr : IsTrimmed r) :
    readText (l ++ " = ".toList ++ r) = .ok e ↔ (IsSideText l ∧ IsSideText r) ∧
      ∃ ls rs, (readSide .left l).result = .ok ls ∧ (readSide .right r).result = .ok rs ∧
        e = ofSides ls rs := by
  constructor
  · intro h
    obtain ⟨left, right, ls, rs, hsides, hls, hrs, he⟩ := exists_of_readText h
    obtain ⟨hside, heq⟩ := (splitSides_spaced_eq_ok_iff hl hr).mp hsides
    obtain ⟨rfl, rfl⟩ := Prod.mk.inj heq
    exact ⟨hside, ls, rs, hls, hrs, he⟩
  · rintro ⟨hside, ls, rs, hls, hrs, rfl⟩
    have hsides := (splitSides_spaced_eq_ok_iff hl hr).mpr ⟨hside, rfl⟩
    simp only [readText, hsides, bind, Except.bind, hls, hrs]
    rfl

/-- A side is read piece by piece. Where two texts are read as left sides of the same right side,
so is their sum, and its equation has the terms of the first, of the second and of the right side
added in this order. -/
theorem read_sum {a b r : String} (ha : IsTrimmed a.toList) (hb : IsTrimmed b.toList)
    (hr : IsTrimmed r.toList) (hplus : b.toList.head? ≠ some '+')
    (he : read (a ++ " = " ++ r) = .ok e) (he' : read (b ++ " = " ++ r) = .ok e') :
    ∃ as bs rs, (readSide .left a.toList).result = .ok as ∧
      (readSide .left b.toList).result = .ok bs ∧ (readSide .right r.toList).result = .ok rs ∧
      e = (empty.addAll as .left).addAll rs .right ∧
      e' = (empty.addAll bs .left).addAll rs .right ∧
      read (a ++ " + " ++ b ++ " = " ++ r) =
        .ok (((empty.addAll as .left).addAll bs .left).addAll rs .right) := by
  simp only [read, String.toList_append] at he he' ⊢
  obtain ⟨⟨hsa, hsr⟩, as, rs, has, hrs, he⟩ := (readText_spaced_eq_ok_iff ha hr).mp he
  obtain ⟨⟨hsb, -⟩, bs, rs', hbs, hrs', he'⟩ := (readText_spaced_eq_ok_iff hb hr).mp he'
  obtain rfl : rs = rs' := Except.ok.inj (hrs.symm.trans hrs')
  refine ⟨as, bs, rs, has, hbs, hrs, he, he', ?_⟩
  have hsum := hsa.sum hsb
  rw [readText_spaced_eq_ok_iff hsum.toIsTrimmed hr]
  refine ⟨⟨hsum, hsr⟩, as ++ bs, rs, result_readSide_sum hsa hsb hplus has hbs, hrs, ?_⟩
  simp only [ofSides, addAll, List.foldl_append]

/-- The second left side begins with a minus sign. -/
theorem read_sum_minus : ∃ (a b r : String) (e e' : Equation) (as bs rs : List Term),
    a = "X^2 - 3" ∧ b = "-2*X" ∧ r = "1" ∧ IsTrimmed a.toList ∧ IsTrimmed b.toList ∧
      IsTrimmed r.toList ∧ b.toList.head? ≠ some '+' ∧ read (a ++ " = " ++ r) = .ok e ∧
      read (b ++ " = " ++ r) = .ok e' ∧ e = (empty.addAll as .left).addAll rs .right ∧
      e' = (empty.addAll bs .left).addAll rs .right ∧
      read (a ++ " + " ++ b ++ " = " ++ r) =
        .ok (((empty.addAll as .left).addAll bs .left).addAll rs .right) := by
  obtain ⟨e, he⟩ := exists_readText_eq_ok "X^2 - 3 = 1".toList (by decide +kernel)
  obtain ⟨e', he'⟩ := exists_readText_eq_ok "-2*X = 1".toList (by decide +kernel)
  have ha : IsTrimmed "X^2 - 3".toList := by decide
  have hb : IsTrimmed "-2*X".toList := by decide
  have hr : IsTrimmed "1".toList := by decide
  have hplus : "-2*X".toList.head? ≠ some '+' := by decide
  obtain ⟨as, bs, rs, -, -, -, heq, heq', h⟩ := read_sum ha hb hr hplus he he'
  exact ⟨_, _, _, e, e', as, bs, rs, rfl, rfl, rfl, ha, hb, hr, hplus, he, he', heq, heq', h⟩

end Equation

end PolyEq
