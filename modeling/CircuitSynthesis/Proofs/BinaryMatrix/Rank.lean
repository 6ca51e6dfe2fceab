import CircuitSynthesis.Proofs.BinaryMatrix.Algebra
import CircuitSynthesis.Proofs.BinaryMatrix.Independence
import CircuitSynthesis.Proofs.BinaryMatrix.Invertibility
import CircuitSynthesis.Proofs.BinaryMatrix.RowOrder
import Mathlib.FieldTheory.Finiteness
import Mathlib.LinearAlgebra.Matrix.Rank

/-!
# Rank

Forward elimination keeps the set of sums of rows, since each of its moves can
be undone. After each column the pivots found so far are independent and the
other rows vanish up to that column (`Echelon`). So in the end different sets of
pivots have different sums, every sum of rows is a sum of pivots, and the number
of sums is two to the number of pivots (`card_rowSums`). Hence the rank is that
of linear algebra (`rank_eq_rank_rowMatrix`), and it depends on the sums only
(`rank_eq_of_rowSums_eq`).
-/

namespace CircuitSynthesis

open BinaryMatrix

/-! ## Sums of rows -/

/-- The sums of the sets of rows. -/
def rowSums (rows : List Nat) : Finset Nat :=
  (Finset.range (2 ^ rows.length)).image (combination rows)

section RowSums

variable {rows rows' : List Nat} {x y : Nat}

theorem mem_rowSums : x ∈ rowSums rows ↔ ∃ s, combination rows s = x := by
  constructor
  · intro hx
    obtain ⟨s, -, hs⟩ := Finset.mem_image.mp hx
    exact ⟨s, hs⟩
  · rintro ⟨s, rfl⟩
    have hlt : s % 2 ^ rows.length < 2 ^ rows.length := Nat.mod_lt _ (Nat.two_pow_pos _)
    refine Finset.mem_image.mpr ⟨_, Finset.mem_range.mpr hlt, combination_congr rfl ?_⟩
    intro i hi
    rw [Nat.testBit_mod_two_pow, decide_eq_true hi, Bool.true_and]

theorem zero_mem_rowSums (rows : List Nat) : 0 ∈ rowSums rows :=
  mem_rowSums.mpr ⟨0, combination_zero rows⟩

theorem getD_mem_rowSums (rows : List Nat) (i : Nat) : rows.getD i 0 ∈ rowSums rows :=
  mem_rowSums.mpr ⟨2 ^ i, combination_two_pow rows i⟩

theorem xor_mem_rowSums (hx : x ∈ rowSums rows) (hy : y ∈ rowSums rows) :
    x ^^^ y ∈ rowSums rows := by
  obtain ⟨s, rfl⟩ := mem_rowSums.mp hx
  obtain ⟨t, rfl⟩ := mem_rowSums.mp hy
  exact mem_rowSums.mpr ⟨s ^^^ t, combination_xor rows s t⟩

/-- Sums of sums of rows are sums of rows. -/
theorem rowSums_subset (h : ∀ row ∈ rows', row ∈ rowSums rows) : rowSums rows' ⊆ rowSums rows := by
  intro x hx
  obtain ⟨s, rfl⟩ := mem_rowSums.mp hx
  exact combination_closed (zero_mem_rowSums rows) (fun _ _ => xor_mem_rowSums) h s

theorem mem_rowSums_of_mem {row : Nat} (h : row ∈ rows) : row ∈ rowSums rows := by
  obtain ⟨i, hi, rfl⟩ := List.getElem_of_mem h
  rw [← List.getD_eq_getElem _ 0 hi]
  exact getD_mem_rowSums rows i

theorem rowSums_perm (h : rows.Perm rows') : rowSums rows = rowSums rows' := by
  apply Finset.Subset.antisymm
  · exact rowSums_subset fun row hrow => mem_rowSums_of_mem (h.mem_iff.mp hrow)
  · exact rowSums_subset fun row hrow => mem_rowSums_of_mem (h.mem_iff.mpr hrow)

/-- The rows of `rows'` are those of `rows`, some of them with row `p` added,
which itself stays. -/
structure PivotAdded (p : Nat) (rows rows' : List Nat) : Prop where
  pivot_eq : rows'.getD p 0 = rows.getD p 0
  row_eq : ∀ i, rows'.getD i 0 = rows.getD i 0 ∨
    rows'.getD i 0 = rows.getD i 0 ^^^ rows.getD p 0

theorem PivotAdded.symm {p : Nat} (h : PivotAdded p rows rows') : PivotAdded p rows' rows := by
  refine ⟨h.pivot_eq.symm, fun i => ?_⟩
  rcases h.row_eq i with he | he
  · exact .inl he.symm
  · refine .inr ?_
    rw [he, h.pivot_eq, Nat.xor_assoc, Nat.xor_self, Nat.xor_zero]

theorem PivotAdded.rowSums_subset {p : Nat} (h : PivotAdded p rows rows') :
    rowSums rows' ⊆ rowSums rows := by
  refine CircuitSynthesis.rowSums_subset fun row hrow => ?_
  obtain ⟨i, hi, rfl⟩ := List.getElem_of_mem hrow
  rw [← List.getD_eq_getElem _ 0 hi]
  rcases h.row_eq i with he | he
  · rw [he]
    exact getD_mem_rowSums rows i
  · rw [he]
    exact xor_mem_rowSums (getD_mem_rowSums rows i) (getD_mem_rowSums rows p)

/-- Adding a row to others keeps the sums, as it can be undone. -/
theorem PivotAdded.rowSums_eq {p : Nat} (h : PivotAdded p rows rows') :
    rowSums rows' = rowSums rows :=
  Finset.Subset.antisymm h.rowSums_subset h.symm.rowSums_subset

theorem rowSums_addRow {dst src : Nat} (hdst : dst < rows.length) (hne : dst ≠ src) :
    rowSums (addRow rows dst src) = rowSums rows := by
  apply PivotAdded.rowSums_eq (p := src)
  refine ⟨?_, fun i => ?_⟩
  · rw [getD_addRow hdst, if_neg hne.symm]
  · rw [getD_addRow hdst]
    split
    · next hi => exact .inr (by rw [hi])
    · exact .inl rfl

end RowSums

/-! ## Forward elimination -/

section Forward

variable {n k found pivot : Nat} {original rows : List Nat} {s : Nat × List Nat}

theorem forwardStep_of_found (h : firstFrom? (·.testBit k) found rows = some pivot) :
    forwardStep (found, rows) k = (found + 1, addBelow found k (swapEntries rows found pivot)) := by
  rw [forwardStep, h]
  rfl

theorem pivotAdded_addBelow (found col : Nat) (rows : List Nat) :
    PivotAdded found rows (addBelow found col rows) := by
  refine ⟨?_, fun i => ?_⟩
  · rw [getD_addBelow, if_neg (by omega)]
  · rw [getD_addBelow]
    split
    · exact .inr rfl
    · exact .inl rfl

/-- After `k` columns of forward elimination: the sums are those of the original
rows, the pivots are independent on these columns, and the other rows vanish
there. -/
structure Echelon (n k : Nat) (original : List Nat) (s : Nat × List Nat) : Prop where
  length_eq : s.2.length = n
  sums_eq : rowSums s.2 = rowSums original
  independent : IndependentOn s.1 k s.2
  vanishes : ∀ r, s.1 ≤ r → r < n → ∀ j < k, (s.2.getD r 0).testBit j = false

theorem Echelon.start (hlength : rows.length = n) : Echelon n 0 rows (0, rows) :=
  ⟨hlength, rfl, independentOn_zero 0 rows, fun _ _ _ j hj => absurd hj (Nat.not_lt_zero j)⟩

/-- Exchanging two rows that are not pivots yet. -/
theorem Echelon.exchange (h : Echelon n k original (found, rows)) (hle : found ≤ pivot)
    (hlt : pivot < n) : Echelon n k original (found, swapEntries rows found pivot) := by
  have hlength : rows.length = n := h.length_eq
  have hget := getD_swapEntries (show found < rows.length by omega)
    (show pivot < rows.length by omega)
  refine ⟨?_, ?_, ?_, fun r hr hrn => ?_⟩
  · simpa using hlength
  · exact (rowSums_perm (perm_swapEntries rows found pivot)).trans h.sums_eq
  · refine h.independent.congr fun r (hr : r < found) => ?_
    rw [hget, if_neg (by omega), if_neg (by omega)]
  · show ∀ j < k, ((swapEntries rows found pivot).getD r 0).testBit j = false
    rw [hget]
    split
    · exact h.vanishes found (Nat.le_refl found) (by omega)
    · split
      · exact h.vanishes pivot hle hlt
      · exact h.vanishes r hr hrn

/-- The row after the pivots becomes a pivot. -/
theorem Echelon.addBelow (h : Echelon n k original (found, rows)) (hfound : found < n)
    (hone : (rows.getD found 0).testBit k = true) :
    Echelon n (k + 1) original (found + 1, addBelow found k rows) := by
  have hzero := h.vanishes found (Nat.le_refl found) hfound
  refine ⟨?_, ?_, ?_, fun r (hr : found + 1 ≤ r) hrn j hj => ?_⟩
  · exact (length_addBelow found k rows).trans h.length_eq
  · exact (pivotAdded_addBelow found k rows).rowSums_eq.trans h.sums_eq
  · refine (h.independent.extend hzero hone).congr fun r (hr : r < found + 1) => ?_
    rw [getD_addBelow, if_neg (by omega)]
  · show ((CircuitSynthesis.addBelow found k rows).getD r 0).testBit j = false
    rw [getD_addBelow]
    rcases Nat.lt_succ_iff_lt_or_eq.mp hj with hlt | rfl
    · have hrow : (rows.getD r 0).testBit j = false := h.vanishes r (by omega) hrn j hlt
      split
      · rw [Nat.testBit_xor, hrow, hzero j hlt]
        rfl
      · exact hrow
    · split
      · next hbit =>
        rw [Nat.testBit_xor, hbit.2, hone]
        rfl
      · next hbit =>
        rw [Bool.eq_false_iff]
        exact fun hrow => hbit ⟨hr, hrow⟩

/-- One column of forward elimination, with a pivot or without. -/
theorem Echelon.forwardStep (h : Echelon n k original s) :
    Echelon n (k + 1) original (forwardStep s k) := by
  obtain ⟨found, rows⟩ := s
  have hlength : rows.length = n := h.length_eq
  cases hpivot : firstFrom? (·.testBit k) found rows with
  | none =>
    rw [forwardStep_of_no_pivot hpivot]
    refine ⟨h.length_eq, h.sums_eq, h.independent.mono (Nat.le_succ k), fun r hr hrn j hj => ?_⟩
    rcases Nat.lt_succ_iff_lt_or_eq.mp hj with hlt | rfl
    · exact h.vanishes r hr hrn j hlt
    · have hr' : r < rows.length := by omega
      show (rows.getD r 0).testBit j = false
      rw [List.getD_eq_getElem _ _ hr']
      exact of_firstFrom?_eq_none hpivot hr (List.getElem?_eq_getElem hr')
  | some pivot =>
    rw [forwardStep_of_found hpivot]
    obtain ⟨hle, hlt, hone⟩ := pivot_of_firstFrom? hlength hpivot
    refine (h.exchange hle hlt).addBelow (by omega) ?_
    rw [getD_swapEntries (by omega) (by omega)]
    split
    · next he => rw [he]; exact hone
    · rw [if_pos rfl]
      exact hone

theorem echelon_run (hlength : rows.length = n) (k : Nat) :
    Echelon n k rows ((List.range k).foldl BinaryMatrix.forwardStep (0, rows)) := by
  induction k with
  | zero => exact .start hlength
  | succ k ih =>
    rw [List.range_succ, List.foldl_append]
    exact ih.forwardStep

/-- Rows that are not pivots vanish in the end. -/
theorem Echelon.getD_eq_zero (h : Echelon n n original s) (hsquare : IsSquare n original) {r : Nat}
    (hr : s.1 ≤ r) : s.2.getD r 0 = 0 := by
  by_cases hrn : r < n
  · obtain ⟨t, ht⟩ : ∃ t, combination original t = s.2.getD r 0 := by
      rw [← mem_rowSums, ← h.sums_eq]
      exact getD_mem_rowSums s.2 r
    have hlt : s.2.getD r 0 < 2 ^ n := ht ▸ combination_lt hsquare.row_lt t
    apply Nat.eq_of_testBit_eq
    intro j
    rw [Nat.zero_testBit]
    by_cases hj : j < n
    · exact h.vanishes r hr hrn j hj
    · exact Bits.testBit_eq_false_of_le hlt (by omega)
  · exact List.getD_eq_default _ _ (by rw [h.length_eq]; omega)

/-- So all sums of rows are sums of pivots. -/
theorem Echelon.rowSums_eq_image (h : Echelon n n original s) (hsquare : IsSquare n original) :
    rowSums s.2 = (Finset.range (2 ^ s.1)).image (combination s.2) := by
  apply Finset.Subset.antisymm
  · intro x hx
    obtain ⟨t, rfl⟩ := mem_rowSums.mp hx
    have hmod : t % 2 ^ s.1 < 2 ^ s.1 := Nat.mod_lt _ (Nat.two_pow_pos _)
    refine Finset.mem_image.mpr ⟨_, Finset.mem_range.mpr hmod, combination_congr rfl ?_⟩
    intro i _
    rw [Nat.testBit_mod_two_pow]
    by_cases hi : i < s.1
    · rw [decide_eq_true hi, Bool.true_and]
    · rw [h.getD_eq_zero hsquare (by omega), ite_self, ite_self]
  · intro x hx
    obtain ⟨t, -, ht⟩ := Finset.mem_image.mp hx
    exact mem_rowSums.mpr ⟨t, ht⟩

/-- In the end the pivots are a basis of the sums: there is one sum for each set
of pivots. -/
theorem Echelon.card_rowSums (h : Echelon n n original s) (hsquare : IsSquare n original) :
    (rowSums original).card = 2 ^ s.1 := by
  have hinj : Set.InjOn (combination s.2) (Finset.range (2 ^ s.1)) := by
    intro t ht u hu htu
    exact h.independent.eq_of_combination_eq (Finset.mem_range.mp (Finset.mem_coe.mp ht))
      (Finset.mem_range.mp (Finset.mem_coe.mp hu)) htu
  rw [← h.sums_eq, h.rowSums_eq_image hsquare, Finset.card_image_of_injOn hinj, Finset.card_range]

end Forward

/-! ## Rank -/

variable {m m' : BinaryMatrix}

/-- The number of sums of rows is two to the rank. -/
theorem card_rowSums (hm : m.WellFormed) : (rowSums m.rows).card = 2 ^ m.rank :=
  (echelon_run rfl m.size).card_rowSums hm.isSquare

/-- Matrices with the same sums of rows have the same rank. -/
theorem rank_eq_of_rowSums_eq (hm : m.WellFormed) (hm' : m'.WellFormed)
    (h : rowSums m.rows = rowSums m'.rows) : m.rank = m'.rank := by
  apply Nat.pow_right_injective (Nat.le_refl 2)
  show 2 ^ m.rank = 2 ^ m'.rank
  rw [← card_rowSums hm, ← card_rowSums hm', h]

/-- The sums of rows, as vectors, are the row space. -/
theorem coe_image_rowSums {n : Nat} {rows : List Nat} (hlength : rows.length = n) :
    (((rowSums rows).image (Bits.vector n) : Finset (Fin n → ZMod 2)) : Set (Fin n → ZMod 2)) =
      LinearMap.range (rowMatrix n rows).vecMulLinear := by
  ext v
  rw [Finset.coe_image, Set.mem_image, SetLike.mem_coe, LinearMap.mem_range]
  constructor
  · rintro ⟨x, hx, rfl⟩
    obtain ⟨s, rfl⟩ := mem_rowSums.mp (Finset.mem_coe.mp hx)
    exact ⟨Bits.vector n s, (vector_combination_eq_vecMul hlength s).symm⟩
  · rintro ⟨w, rfl⟩
    obtain ⟨s, -, rfl⟩ := Bits.exists_vector_eq w
    exact ⟨combination rows s, Finset.mem_coe.mpr (mem_rowSums.mpr ⟨s, rfl⟩),
      vector_combination_eq_vecMul hlength s⟩

/-- The rank is the rank over the field with two elements. -/
theorem rank_eq_rank_rowMatrix (hm : m.WellFormed) :
    m.rank = (rowMatrix m.size m.rows).rank := by
  have hinj : Set.InjOn (Bits.vector m.size) (rowSums m.rows) := by
    intro x hx y hy hxy
    obtain ⟨s, rfl⟩ := mem_rowSums.mp (Finset.mem_coe.mp hx)
    obtain ⟨t, rfl⟩ := mem_rowSums.mp (Finset.mem_coe.mp hy)
    exact Bits.eq_of_vector_eq (combination_lt hm.row_lt s) (combination_lt hm.row_lt t) hxy
  have hspace : Nat.card (LinearMap.range (rowMatrix m.size m.rows).vecMulLinear) =
      (rowSums m.rows).card := by
    rw [← Finset.card_image_of_injOn hinj, ← Set.ncard_coe_finset,
      coe_image_rowSums (show m.rows.length = m.size from rfl)]
    rfl
  have hdimension : Nat.card (LinearMap.range (rowMatrix m.size m.rows).vecMulLinear) =
      2 ^ (rowMatrix m.size m.rows).rank := by
    rw [Module.natCard_eq_pow_finrank (K := ZMod 2), Nat.card_zmod, range_vecMulLinear,
      ← Matrix.rank_eq_finrank_span_row]
  apply Nat.pow_right_injective (Nat.le_refl 2)
  show 2 ^ m.rank = 2 ^ (rowMatrix m.size m.rows).rank
  rw [← card_rowSums hm, ← hspace, hdimension]

namespace BinaryMatrix

/-- **Rank.** There are two to the rank sums of rows. The rank is that of the
transpose, and adding a row to another one, exchanging two rows and putting the
rows in another order keep it. -/
theorem rank_laws (m : BinaryMatrix) (hm : m.WellFormed) :
    (rowSums m.rows).card = 2 ^ m.rank ∧
    m.transpose.rank = m.rank ∧
    (∀ dst < m.size, ∀ src < m.size, dst ≠ src →
      ∃ m', m.addRow? dst src = some m' ∧ m'.rank = m.rank) ∧
    (∀ a < m.size, ∀ b < m.size, ∃ m', m.swapRows? a b = some m' ∧ m'.rank = m.rank) ∧
    (∀ order, IsRangePermutation m.size order →
      ∃ m', m.gatherRows order = .ok m' ∧ m'.rank = m.rank) := by
  refine ⟨card_rowSums hm, ?_, fun dst hdst src hsrc hne => ?_, fun a ha b hb => ?_,
    fun order horder => ?_⟩
  · have hsquare : IsSquare m.size m.transpose.rows := isSquare_transpose rfl
    have hsize : m.transpose.size = m.size := hsquare.length_eq
    have hmatrix : rowMatrix m.size m.transpose.rows = (rowMatrix m.size m.rows).transpose :=
      rowMatrix_transpose rfl
    rw [rank_eq_rank_rowMatrix (wellFormed_of_isSquare hsquare hm.size_le),
      rank_eq_rank_rowMatrix hm, hsize, hmatrix, Matrix.rank_transpose]
  · refine ⟨_, if_pos ⟨hdst, hsrc⟩, rank_eq_of_rowSums_eq ?_ hm (rowSums_addRow hdst hne)⟩
    exact wellFormed_of_isSquare (hm.isSquare.addRow dst src) hm.size_le
  · have hperm := perm_swapEntries m.rows a b
    refine ⟨_, if_pos ⟨ha, hb⟩, rank_eq_of_rowSums_eq ?_ hm (rowSums_perm hperm)⟩
    exact wellFormed_of_isSquare (hm.isSquare.swapEntries a b) hm.size_le
  · refine ⟨_, gatherRows_eq_ok horder, rank_eq_of_rowSums_eq ?_ hm ?_⟩
    · exact wellFormed_of_isSquare (isSquare_gathered hm.isSquare horder) hm.size_le
    · have hrows := (perm_range_of_isRangePermutation horder).map m.row
      rw [map_row_range] at hrows
      exact rowSums_perm hrows

/-- The first column is empty, so that the pivots lag behind the columns, and
three of the rows add up to zero. -/
theorem rank_laws_lagging :
    WellFormed ⟨[4, 12, 8, 2]⟩ ∧ rank ⟨[4, 12, 8, 2]⟩ = 3 ∧
      rowSums [4, 12, 8, 2] = {0, 2, 4, 6, 8, 10, 12, 14} ∧
      (rowSums [4, 12, 8, 2]).card = 2 ^ 3 ∧ rank (transpose ⟨[4, 12, 8, 2]⟩) = 3 := by
  have hm : WellFormed ⟨[4, 12, 8, 2]⟩ := ⟨by decide, by decide⟩
  have hrank : rank ⟨[4, 12, 8, 2]⟩ = 3 := by decide +kernel
  obtain ⟨hcard, htranspose, -⟩ := rank_laws _ hm
  rw [hrank] at hcard htranspose
  exact ⟨hm, hrank, by decide +kernel, hcard, htranspose⟩

end BinaryMatrix

end CircuitSynthesis
