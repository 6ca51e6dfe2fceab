import CircuitSynthesis.Proofs.BinaryMatrix.Field
import Mathlib.LinearAlgebra.Matrix.Block

/-!
# Rows on their way to triangular form

Elimination works from the first column to the last. After `k` columns the
rows are triangular up to `k`: each of these columns has a one on the diagonal
and zeros below it. Once all columns are done the matrix is invertible, and as
long as the matrix is invertible there is a one to be found on or below the
diagonal of the next column.
-/

namespace CircuitSynthesis

/-- The first `k` columns have a one on the diagonal and zeros below it. -/
def TriangularTo (n k : Nat) (rows : List Nat) : Prop :=
  ∀ j < k, (rows.getD j 0).testBit j = true ∧
    ∀ i, j < i → i < n → (rows.getD i 0).testBit j = false

variable {n k : Nat} {rows : List Nat}

theorem triangularTo_zero (n : Nat) (rows : List Nat) : TriangularTo n 0 rows := by
  intro j hj
  omega

theorem TriangularTo.diagonal (h : TriangularTo n k rows) {j : Nat} (hj : j < k) :
    (rows.getD j 0).testBit j = true := (h j hj).1

theorem TriangularTo.below (h : TriangularTo n k rows) {i j : Nat} (hj : j < k) (hij : j < i)
    (hi : i < n) : (rows.getD i 0).testBit j = false := (h j hj).2 i hij hi

/-! ## Invertibility -/

/-- A matrix with ones on the diagonal and zeros below it is invertible. -/
theorem TriangularTo.isUnit (h : TriangularTo n n rows) : IsUnit (rowMatrix n rows) := by
  have hupper : (rowMatrix n rows).IsUpperTriangular := by
    intro i j hij
    have hlt : (j : Nat) < i := hij
    rw [rowMatrix_apply, h.below j.isLt hlt i.isLt]
    rfl
  rw [Matrix.isUnit_iff_isUnit_det, Matrix.det_of_isUpperTriangular hupper]
  have hone : ∀ i ∈ Finset.univ, rowMatrix n rows i i = 1 := by
    intro i _
    rw [rowMatrix_apply, h.diagonal i.isLt]
    rfl
  rw [Finset.prod_eq_one hone]
  exact isUnit_one

/-- A matrix whose rows from `k` on vanish up to column `k` is singular: these
rows are too many for the columns that remain to them. -/
theorem det_eq_zero_of_corner {M : Matrix (Fin n) (Fin n) (ZMod 2)} (k : Fin n)
    (h : ∀ i j : Fin n, k ≤ i → j ≤ k → M i j = 0) : M.det = 0 := by
  rw [Matrix.det_apply]
  apply Finset.sum_eq_zero
  intro σ _
  -- Some column up to `k` goes to a row from `k` on, since there are only `k` other rows.
  have hhit : ∃ j ≤ k, k ≤ σ j := by
    by_contra hnone
    have hmaps : ∀ j ∈ Finset.Iic k, σ j ∈ Finset.Iio k := by
      intro j hj
      rw [Finset.mem_Iio]
      by_contra hge
      exact hnone ⟨j, Finset.mem_Iic.mp hj, not_lt.mp hge⟩
    have hcard := Finset.card_le_card_of_injOn σ hmaps σ.injective.injOn
    rw [Fin.card_Iic, Fin.card_Iio] at hcard
    omega
  obtain ⟨j, hj, hσ⟩ := hhit
  have hprod : ∏ i, M (σ i) i = 0 :=
    Finset.prod_eq_zero (Finset.mem_univ j) (h (σ j) j hσ hj)
  rw [hprod, smul_zero]

/-- An invertible matrix that is triangular up to `k` has a one on or below the
diagonal of column `k`. -/
theorem TriangularTo.exists_pivot (h : TriangularTo n k rows) (hk : k < n)
    (hunit : IsUnit (rowMatrix n rows)) :
    ∃ i, k ≤ i ∧ i < n ∧ (rows.getD i 0).testBit k = true := by
  by_contra hnone
  have hzero : (rowMatrix n rows).det = 0 := by
    apply det_eq_zero_of_corner ⟨k, hk⟩
    intro i j hi hj
    have hbit : (rows.getD i 0).testBit j = false := by
      rcases Nat.lt_or_eq_of_le hj with hlt | heq
      · exact h.below hlt (Nat.lt_of_lt_of_le hlt hi) i.isLt
      · rw [heq, Bool.eq_false_iff]
        exact fun hbit => hnone ⟨i, hi, i.isLt, hbit⟩
    rw [rowMatrix_apply, hbit]
    rfl
  rw [Matrix.isUnit_iff_isUnit_det, hzero] at hunit
  exact not_isUnit_zero hunit

/-! ## Additions -/

/-- Adding a row from `k` on to another one leaves the first `k` columns alone. -/
theorem TriangularTo.addRow (h : TriangularTo n k rows) (hlength : rows.length = n) {dst src : Nat}
    (hdst : dst < n) (hsrc : k ≤ src) (hsrc' : src < n) :
    TriangularTo n k (addRow rows dst src) := by
  have hbit : ∀ i, ∀ j < k,
      ((CircuitSynthesis.addRow rows dst src).getD i 0).testBit j =
        (rows.getD i 0).testBit j := by
    intro i j hj
    rw [getD_addRow (by omega)]
    split
    · next hi =>
      rw [hi, Nat.testBit_xor, h.below hj (by omega) hsrc', Bool.xor_false]
    · rfl
  intro j hj
  refine ⟨?_, fun i hij hi => ?_⟩
  · rw [hbit j j hj]
    exact h.diagonal hj
  · rw [hbit i j hj]
    exact h.below hj hij hi

end CircuitSynthesis
