import CircuitSynthesis.BinaryMatrix.Basic
import CircuitSynthesis.Proofs.Bits
import Mathlib.Algebra.Field.ZMod
import Mathlib.Data.List.GetD
import Mathlib.LinearAlgebra.Matrix.NonsingularInverse
import Mathlib.LinearAlgebra.Matrix.Transvection

/-!
# Bit sets and rows over the field with two elements

A bit set is a vector over `ZMod 2` and a list of rows is a square matrix.
Under this reading symmetric difference is addition, adding a row to another
one is multiplication by a transvection from the left, `combination` is the
product of a row with a matrix, and transposition is transposition. Rows that
fit the size are determined by their matrix (`eq_of_rowMatrix_eq`), so that
equations between row lists can be proved between matrices.
-/

namespace CircuitSynthesis

/-! ## Bit sets as vectors -/

namespace Bits

/-- The characteristic vector of the positions of `s` below `n`. -/
def vector (n s : Nat) : Fin n → ZMod 2 := fun j => if s.testBit j then 1 else 0

theorem vector_apply (n s : Nat) (j : Fin n) :
    vector n s j = if s.testBit j then 1 else 0 := rfl

@[simp] theorem vector_zero (n : Nat) : vector n 0 = 0 := by
  funext j
  simp [vector_apply]

theorem vector_xor (n s t : Nat) : vector n (s ^^^ t) = vector n s + vector n t := by
  funext j
  rw [Pi.add_apply, vector_apply, vector_apply, vector_apply, Nat.testBit_xor]
  cases s.testBit j <;> cases t.testBit j <;> decide

/-- Bit sets below `2 ^ n` are determined by their vectors. -/
theorem eq_of_vector_eq {n s t : Nat} (hs : s < 2 ^ n) (ht : t < 2 ^ n)
    (h : vector n s = vector n t) : s = t := by
  apply Nat.eq_of_testBit_eq
  intro j
  by_cases hj : j < n
  · have he := congrFun h ⟨j, hj⟩
    rw [vector_apply, vector_apply] at he
    revert he
    cases s.testBit j <;> cases t.testBit j <;> simp
  · rw [testBit_eq_false_of_le hs (by omega), testBit_eq_false_of_le ht (by omega)]

end Bits

/-! ## Rows as matrices -/

/-- The square matrix with the given rows; missing rows are zero. -/
def rowMatrix (n : Nat) (rows : List Nat) : Matrix (Fin n) (Fin n) (ZMod 2) :=
  fun i => Bits.vector n (rows.getD i 0)

theorem rowMatrix_apply (n : Nat) (rows : List Nat) (i j : Fin n) :
    rowMatrix n rows i j = if (rows.getD i 0).testBit j then 1 else 0 := rfl

/-- There are `n` rows, and none reaches beyond column `n`. -/
structure IsSquare (n : Nat) (rows : List Nat) : Prop where
  length_eq : rows.length = n
  row_lt : ∀ row ∈ rows, row < 2 ^ n

theorem IsSquare.getD_lt {n : Nat} {rows : List Nat} (h : IsSquare n rows) (i : Nat) :
    rows.getD i 0 < 2 ^ n := by
  rw [List.getD_eq_getElem?_getD]
  cases hi : rows[i]? with
  | none => exact Nat.two_pow_pos n
  | some row => exact h.row_lt row (List.mem_of_getElem? hi)

theorem BinaryMatrix.WellFormed.isSquare {m : BinaryMatrix} (h : m.WellFormed) :
    IsSquare m.size m.rows := ⟨rfl, h.row_lt⟩

/-- Rows that fit a supported size are a matrix of that size. -/
theorem BinaryMatrix.wellFormed_of_isSquare {n : Nat} {m : BinaryMatrix} (h : IsSquare n m.rows)
    (hn : n ≤ maxSize) : m.WellFormed := by
  have hsize : m.size = n := h.length_eq
  refine ⟨by rw [hsize]; exact hn, ?_⟩
  rw [hsize]
  exact h.row_lt

theorem BinaryMatrix.ofRows_of_isSquare {n : Nat} {rows : List Nat} (h : IsSquare n rows)
    (hn : n ≤ maxSize) : ofRows rows = .ok ⟨rows⟩ :=
  ofRows_eq_ok_iff.mpr ⟨rfl, wellFormed_of_isSquare h hn⟩

theorem eq_of_getD_eq {rows rows' : List Nat} (hlength : rows.length = rows'.length)
    (h : ∀ i < rows.length, rows.getD i 0 = rows'.getD i 0) : rows = rows' := by
  apply List.ext_getElem hlength
  intro i hi hi'
  simpa [hi, hi'] using h i hi

/-- Rows that fit the size are determined by their matrix. -/
theorem eq_of_rowMatrix_eq {n : Nat} {rows rows' : List Nat} (h : IsSquare n rows)
    (h' : IsSquare n rows') (he : rowMatrix n rows = rowMatrix n rows') : rows = rows' := by
  apply eq_of_getD_eq (by rw [h.length_eq, h'.length_eq])
  intro i hi
  rw [h.length_eq] at hi
  exact Bits.eq_of_vector_eq (h.getD_lt i) (h'.getD_lt i) (congrFun he ⟨i, hi⟩)

theorem isSquare_units (n : Nat) : IsSquare n (Bits.units n) := by
  refine ⟨Bits.length_units n, fun row hrow => ?_⟩
  obtain ⟨i, hi, rfl⟩ := List.mem_map.mp hrow
  exact Nat.pow_lt_pow_right (by omega) (List.mem_range.mp hi)

theorem getD_units {n i : Nat} (h : i < n) : (Bits.units n).getD i 0 = 2 ^ i := by
  simp [Bits.units, h]

@[simp] theorem rowMatrix_units (n : Nat) : rowMatrix n (Bits.units n) = 1 := by
  ext i j
  rw [rowMatrix_apply, getD_units i.isLt, Nat.testBit_two_pow, Matrix.one_apply]
  simp [Fin.ext_iff]

/-! ## Row additions -/

@[simp] theorem length_addRow (rows : List Nat) (dst src : Nat) :
    (addRow rows dst src).length = rows.length := List.length_set

theorem getD_addRow {rows : List Nat} {dst : Nat} (h : dst < rows.length) (src i : Nat) :
    (addRow rows dst src).getD i 0 =
      if i = dst then rows.getD dst 0 ^^^ rows.getD src 0 else rows.getD i 0 := by
  unfold addRow
  rw [List.getD_eq_getElem?_getD, List.getElem?_set]
  by_cases hi : dst = i
  · subst hi
    simp [h]
  · simp [hi, Ne.symm hi]

theorem IsSquare.addRow {n : Nat} {rows : List Nat} (h : IsSquare n rows) (dst src : Nat) :
    IsSquare n (addRow rows dst src) := by
  refine ⟨(length_addRow rows dst src).trans h.length_eq, fun row hrow => ?_⟩
  rcases List.mem_or_eq_of_mem_set hrow with hmem | rfl
  · exact h.row_lt row hmem
  · exact Nat.xor_lt_two_pow (h.getD_lt dst) (h.getD_lt src)

/-- Adding a row to another one multiplies by a transvection. -/
theorem rowMatrix_addRow {n : Nat} {rows : List Nat} (hlength : rows.length = n) {dst src : Nat}
    (hdst : dst < n) (hsrc : src < n) :
    rowMatrix n (addRow rows dst src) =
      Matrix.transvection ⟨dst, hdst⟩ ⟨src, hsrc⟩ 1 * rowMatrix n rows := by
  have hrow : ∀ i : Fin n, rowMatrix n (addRow rows dst src) i = Bits.vector n
      (if (i : Nat) = dst then rows.getD dst 0 ^^^ rows.getD src 0 else rows.getD i 0) := by
    intro i
    rw [rowMatrix, getD_addRow (by omega)]
  ext i j
  rw [hrow i]
  by_cases hi : i = ⟨dst, hdst⟩
  · subst hi
    rw [if_pos rfl, Bits.vector_xor, Matrix.transvection_mul_apply_same, one_mul]
    rfl
  · have hne : (i : Nat) ≠ dst := fun h => hi (Fin.ext h)
    rw [if_neg hne, Matrix.transvection_mul_apply_of_ne _ _ _ _ hi]
    rfl

theorem transpose_transvection {n : Nat} (i j : Fin n) (c : ZMod 2) :
    (Matrix.transvection i j c).transpose = Matrix.transvection j i c := by
  simp [Matrix.transvection]

/-! ## Combinations of rows -/

theorem combination_xor (rows : List Nat) (s t : Nat) :
    combination rows (s ^^^ t) = combination rows s ^^^ combination rows t := by
  induction rows generalizing s t with
  | nil => rw [combination, combination, combination, Nat.xor_self]
  | cons row rest ih =>
    have hhead : (if (s ^^^ t).testBit 0 then row else 0) =
        (if s.testBit 0 then row else 0) ^^^ (if t.testBit 0 then row else 0) := by
      rw [Nat.testBit_xor]
      cases s.testBit 0 <;> cases t.testBit 0 <;> simp
    rw [combination, combination, combination, hhead, Nat.shiftRight_xor_distrib, ih]
    ac_rfl

@[simp] theorem combination_zero (rows : List Nat) : combination rows 0 = 0 := by
  induction rows with
  | nil => rfl
  | cons row rest ih => simp [combination, ih]

theorem combination_two_pow (rows : List Nat) (i : Nat) :
    combination rows (2 ^ i) = rows.getD i 0 := by
  induction rows generalizing i with
  | nil => rfl
  | cons row rest ih =>
    cases i with
    | zero => simp [combination]
    | succ i =>
      have hshift : 2 ^ (i + 1) >>> 1 = 2 ^ i := by
        rw [Nat.shiftRight_eq_div_pow, Nat.pow_succ, Nat.pow_one,
          Nat.mul_div_cancel _ Nat.two_pos]
      rw [combination, hshift, ih, Nat.testBit_two_pow]
      simp

/-- Combinations of combinations are combinations. -/
theorem combination_combination (rows units : List Nat) (s : Nat) :
    combination rows (combination units s) = combination (units.map (combination rows)) s := by
  induction units generalizing s with
  | nil => exact combination_zero rows
  | cons unit units ih =>
    rw [combination, combination_xor, ih, List.map_cons, combination]
    split
    · rfl
    · rw [combination_zero]

/-- What holds of the rows and of sums of two holds of all combinations. -/
theorem combination_closed {P : Nat → Prop} (hzero : P 0)
    (hxor : ∀ x y, P x → P y → P (x ^^^ y)) {rows : List Nat} (hrows : ∀ row ∈ rows, P row)
    (s : Nat) : P (combination rows s) := by
  induction rows generalizing s with
  | nil => exact hzero
  | cons row rest ih =>
    rw [combination]
    refine hxor _ _ ?_ (ih (fun r hr => hrows r (List.mem_cons_of_mem _ hr)) _)
    split
    · exact hrows row List.mem_cons_self
    · exact hzero

/-- Combinations agree if each row adds the same to both. -/
theorem combination_congr {rows rows' : List Nat} {s t : Nat} (hlength : rows.length = rows'.length)
    (h : ∀ i < rows.length, (if s.testBit i then rows.getD i 0 else 0) =
      if t.testBit i then rows'.getD i 0 else 0) :
    combination rows s = combination rows' t := by
  induction rows generalizing rows' s t with
  | nil =>
    rw [List.eq_nil_of_length_eq_zero hlength.symm]
    rfl
  | cons row rest ih =>
    obtain ⟨row', rest', rfl⟩ := List.exists_cons_of_length_eq_add_one hlength.symm
    have hhead := h 0 (Nat.succ_pos _)
    have htail : combination rest (s >>> 1) = combination rest' (t >>> 1) := by
      apply ih (Nat.succ.inj hlength)
      intro i hi
      have hi' := h (i + 1) (Nat.succ_lt_succ hi)
      rw [Nat.testBit_shiftRight, Nat.testBit_shiftRight, Nat.add_comm 1 i]
      exact hi'
    rw [combination, combination, htail]
    exact congrArg (· ^^^ _) hhead

/-- Combinations of the first `k` rows do not depend on the others. -/
theorem combination_congr_of_lt {rows rows' : List Nat} {k s : Nat}
    (hlength : rows.length = rows'.length) (h : ∀ i < k, rows.getD i 0 = rows'.getD i 0)
    (hs : s < 2 ^ k) : combination rows s = combination rows' s := by
  refine combination_congr hlength fun i _ => ?_
  by_cases hi : i < k
  · rw [h i hi]
  · have hpow : 2 ^ k ≤ 2 ^ i := Nat.pow_le_pow_right (by omega) (by omega)
    have hbit : s.testBit i = false := Nat.testBit_lt_two_pow (by omega)
    rw [hbit]
    rfl

/-- A row that grows by `d` adds `d` to the combinations that use it. -/
theorem combination_set_xor {rows : List Nat} {i : Nat} (hi : i < rows.length) (d s : Nat) :
    combination (rows.set i (rows.getD i 0 ^^^ d)) s =
      combination rows s ^^^ (if s.testBit i then d else 0) := by
  induction rows generalizing i s with
  | nil => cases hi
  | cons row rest ih =>
    cases i with
    | zero =>
      show combination ((row ^^^ d) :: rest) s = _
      rw [combination, combination]
      cases s.testBit 0
      · simp
      · simp only [if_true]
        ac_rfl
    | succ i =>
      have hrest := ih (Nat.lt_of_succ_lt_succ hi) (s >>> 1)
      rw [Nat.testBit_shiftRight, Nat.add_comm 1 i] at hrest
      show combination (row :: rest.set i (rest.getD i 0 ^^^ d)) s = _
      rw [combination, combination, hrest, Nat.xor_assoc]

/-! ## Products and transposes -/

/-- A combination of rows is a sum of vectors. -/
theorem vector_combination (n : Nat) (rows : List Nat) (s : Nat) :
    Bits.vector n (combination rows s) =
      ∑ i ∈ Finset.range rows.length,
        (if s.testBit i then (1 : ZMod 2) else 0) • Bits.vector n (rows.getD i 0) := by
  induction rows generalizing s with
  | nil => simp [combination]
  | cons row rest ih =>
    rw [combination, Bits.vector_xor, ih, List.length_cons, Finset.sum_range_succ', add_comm]
    congr 1
    · apply Finset.sum_congr rfl
      intro i _
      rw [Nat.testBit_shiftRight, Nat.add_comm 1 i]
      rfl
    · cases s.testBit 0 <;> simp

/-- A combination of the rows of a matrix is a row vector times the matrix. -/
theorem vector_combination_eq_vecMul {n : Nat} {rows : List Nat} (hlength : rows.length = n)
    (s : Nat) :
    Bits.vector n (combination rows s) =
      Matrix.vecMul (Bits.vector n s) (rowMatrix n rows) := by
  funext j
  rw [vector_combination, hlength, Finset.sum_apply]
  rw [← Fin.sum_univ_eq_sum_range
    (fun i => ((if s.testBit i then (1 : ZMod 2) else 0) • Bits.vector n (rows.getD i 0)) j) n]
  rfl

theorem combination_lt {n : Nat} {rows : List Nat} (h : ∀ row ∈ rows, row < 2 ^ n) (s : Nat) :
    combination rows s < 2 ^ n :=
  combination_closed (Nat.two_pow_pos n) (fun _ _ => Nat.xor_lt_two_pow) h s

theorem combination_units {n s : Nat} (hs : s < 2 ^ n) : combination (Bits.units n) s = s := by
  apply Bits.eq_of_vector_eq (combination_lt (isSquare_units n).row_lt s) hs
  rw [vector_combination_eq_vecMul (Bits.length_units n), rowMatrix_units, Matrix.vecMul_one]

/-- Combining rows of a matrix row by row is the matrix product. -/
theorem rowMatrix_map_combination {n : Nat} {rows rows' : List Nat} (hlength : rows.length = n)
    (hlength' : rows'.length = n) :
    rowMatrix n (rows.map (combination rows')) = rowMatrix n rows * rowMatrix n rows' := by
  ext i j
  have hi : (i : Nat) < rows.length := by rw [hlength]; exact i.isLt
  have hrow : rowMatrix n (rows.map (combination rows')) i =
      Bits.vector n (combination rows' (rows.getD i 0)) := by
    rw [rowMatrix]
    simp [hi]
  rw [hrow, vector_combination_eq_vecMul hlength']
  rfl

theorem rowMatrix_transpose {n : Nat} {rows : List Nat} (hlength : rows.length = n) :
    rowMatrix n (BinaryMatrix.transpose ⟨rows⟩).rows = (rowMatrix n rows).transpose := by
  ext i j
  have hrow : (BinaryMatrix.transpose ⟨rows⟩).rows.getD i 0 =
      Bits.ofPredicate n fun k => (rows.getD k 0).testBit i := by
    simp [BinaryMatrix.transpose, BinaryMatrix.size, BinaryMatrix.row, hlength]
  rw [Matrix.transpose_apply, rowMatrix_apply, rowMatrix_apply, hrow, Bits.testBit_ofPredicate]
  simp

theorem isSquare_transpose {n : Nat} {rows : List Nat} (hlength : rows.length = n) :
    IsSquare n (BinaryMatrix.transpose ⟨rows⟩).rows := by
  refine ⟨by simp [BinaryMatrix.transpose, BinaryMatrix.size, hlength], fun row hrow => ?_⟩
  obtain ⟨j, -, rfl⟩ := List.mem_map.mp hrow
  apply Nat.lt_pow_two_of_testBit
  intro i hi
  rw [Bits.testBit_ofPredicate]
  have : ¬i < rows.length := by omega
  simp [BinaryMatrix.size, this]

end CircuitSynthesis
