import CircuitSynthesis.Proofs.BinaryMatrix.Inverse
import CircuitSynthesis.Proofs.Cnot.Recipe
import Mathlib.Tactic.TFAE

/-!
# Singular matrices

Four eliminations meet a singular matrix: the rank passes over a column that
has no pivot, the inverse and the elimination order give up there, and
elimination in blocks gives up where the diagonal stays zero. On an invertible
matrix all of them succeed. Here is the other direction: what a successful run
leaves behind is triangular (`invariant_of_foldlM` carries the invariants of the
single columns through it), and a matrix that row operations make triangular is
invertible. So all tests agree with one another and with the injectivity of the
linear map (`singularity_tests_agree`).
-/

namespace CircuitSynthesis

open BinaryMatrix

variable {m : BinaryMatrix}

namespace Cnot

theorem orderStep_of_no_pivot {k : Nat} {pairs : List (Nat × Nat)}
    (h : firstFrom? (·.testBit k) k (pairs.map Prod.fst) = none) :
    orderStep pairs k = none := by
  rw [firstFrom?_map] at h
  rw [orderStep, h]
  rfl

/-- Only an invertible matrix has an elimination order. -/
theorem isUnit_of_eliminationOrder {order : List Nat} (h : eliminationOrder m = .ok order) :
    IsUnit (rowMatrix m.size m.rows) := by
  unfold eliminationOrder at h
  cases hrun : (List.range m.size).foldlM orderStep (m.rows.zip (List.range m.size)) with
  | none => simp [hrun] at h
  | some pairs =>
    exact isUnit_of_elimination orderStep (fun k i => k < i) rfl
      (List.map_fst_zip (by simp [size])) (fun _ _ hi => hi) Nat.lt_irrefl
      (fun hk hpivot => by
        obtain ⟨pairs', hstep, hfst, -⟩ := orderStep_of_pivot hk hpivot
        exact ⟨pairs', hstep, hfst⟩)
      orderStep_of_no_pivot hrun

/-! ## Elimination in blocks -/

namespace Progress

variable {n k : Nat} {start : List Nat} {s : Progress}

/-- The additions performed, from the last to the first, lead back to the start. -/
theorem Stage.run_performed (h : Stage n k start s) (hstart : start.length = n) :
    run s.rows s.performed = start := by
  have hgates : ∀ g ∈ s.performed.reverse, g.WellFormed n := fun g hg =>
    h.wellFormed g (List.mem_reverse.mp hg)
  have hundo := run_run_reverse hgates hstart
  rwa [← h.rows_eq, List.reverse_reverse] at hundo

/-- The rows were invertible before the additions if they are so now. -/
theorem Stage.isUnit_start (h : Stage n k start s) (hstart : start.length = n)
    (hunit : IsUnit (rowMatrix n s.rows)) : IsUnit (rowMatrix n start) := by
  rw [← h.run_performed hstart]
  exact isUnit_rowMatrix_run h.wellFormed (h.length_eq hstart) hunit

end Progress

/-- What holds of elimination in blocks that succeeds: `Inv k` between the blocks
and after each column, `Opened k` also while a block waits for its first column
to be cleared. -/
theorem invariant_of_triangulate {n width : Nat} {rows : List Nat} {s : Progress}
    (Inv Opened : Nat → Progress → Prop) (hwidth : 0 < width)
    (hlength : ∀ k t, Inv k t → t.rows.length = n) (hopened : ∀ k t, Inv k t → Opened k t)
    (hcancel : ∀ k < n, ∀ t, Inv k t → Opened k
      ((List.range' k (n - k)).foldl (Progress.cancelRow k width) (t, [])).1)
    (hcolumn : ∀ k < n, ∀ t t', Opened k t → t.clearColumn k = some t' → Inv (k + 1) t')
    (hstart : Inv 0 ⟨rows, []⟩) (h : triangulate width rows = some s) : Inv n s := by
  have hblock : ∀ k < n, ∀ t t', Inv k t → t.clearBlock width k = some t' →
      Inv (min (k + width) n) t' := by
    intro k hk t t' ht hclear
    unfold Progress.clearBlock at hclear
    rw [hlength k t ht] at hclear
    have hend := invariant_of_foldlM (fun i t => Opened i t ∧ (k < i → Inv i t))
      (fun i _ hi t t' ht hclear => by
        have hinv : Inv (i + 1) t' := hcolumn i (by omega) t t' ht.1 hclear
        exact ⟨hopened _ _ hinv, fun _ => hinv⟩)
      ⟨hcancel k hk t ht, fun hlt => absurd hlt (Nat.lt_irrefl k)⟩ hclear
    rw [Nat.add_sub_cancel' (by omega)] at hend
    exact hend.2 (by omega)
  have hrows : rows.length = n := hlength _ _ hstart
  rw [triangulate_eq, hrows, List.range_eq_range'] at h
  have hend := invariant_of_foldlM (fun i t => Inv (min (i * width) n) t)
    (fun i _ hi t t' ht hclear => ?_) (by rwa [Nat.zero_mul, Nat.zero_min]) h
  · rwa [Nat.zero_add, Nat.min_eq_right (le_blocks_mul hwidth)] at hend
  · have hlt : i * width < n := blockStart_lt (by omega)
    rw [Nat.min_eq_left (Nat.le_of_lt hlt)] at ht
    rw [Nat.succ_mul]
    exact hblock _ hlt t t' ht hclear

/-- Elimination in blocks ends in an upper triangle whenever it succeeds. -/
theorem stage_of_triangulate {n width : Nat} {rows : List Nat} {s : Progress}
    (hlength : rows.length = n) (hwidth : 0 < width) (h : triangulate width rows = some s) :
    Progress.Stage n n rows s := by
  exact invariant_of_triangulate (fun k t => Progress.Stage n k rows t)
    (fun k t => Progress.Stage n k rows t) hwidth (fun _ _ ht => ht.length_eq hlength)
    (fun _ _ ht => ht) (fun k hk t ht => (ht.cancelRows hlength width (n - k) (by omega)).1)
    (fun k hk t t' ht hclear => ht.of_clearColumn hlength hk hclear) (.begin n rows) h

/-- On a singular matrix the first elimination in blocks gives up. -/
theorem forMatrix_eq_singular (h : ¬IsUnit (rowMatrix m.size m.rows)) {k : Nat} (hk : 1 ≤ k) :
    forMatrix m k = .error .singular := by
  have hsize : m.size ≠ 0 := by
    intro hsize
    have htriangular : TriangularTo m.size m.size m.rows := by
      rw [hsize]
      exact triangularTo_zero 0 m.rows
    exact h htriangular.isUnit
  have hlower : triangulate (min k m.size) m.rows = none := by
    cases hrun : triangulate (min k m.size) m.rows with
    | none => rfl
    | some lower =>
      have hstage := stage_of_triangulate rfl (show 0 < min k m.size by omega) hrun
      exact absurd (hstage.isUnit_start rfl hstage.triangular.isUnit) h
  unfold forMatrix
  rw [if_neg (show k ≠ 0 by omega), if_neg hsize]
  simp only [triangular, hlower, bind, Except.bind]

end Cnot

/-! ## All tests -/

theorem Cnot.eliminationOrder_eq_singular (h : ¬IsUnit (rowMatrix m.size m.rows)) :
    eliminationOrder m = .error .singular := by
  cases ho : eliminationOrder m with
  | ok order => exact absurd (isUnit_of_eliminationOrder ho) h
  | error e =>
    unfold eliminationOrder at ho
    split at ho <;> cases ho
    rfl

/-- **One notion of singularity.** A matrix has full rank, has an inverse, has
an elimination order, has gates for some partition size, has gates for every
partition size, and keeps all patterns apart, or nothing of this is so. Then
whoever asked for one of these is told that the matrix is singular. -/
theorem singularity_tests_agree (m : BinaryMatrix) (hm : m.WellFormed) :
    List.TFAE [m.isInvertible = true,
      m.rank = m.size,
      ∃ i, m.inverse = .ok i,
      ∃ order, Cnot.eliminationOrder m = .ok order,
      ∃ k ≥ 1, ∃ gates, Cnot.forMatrix m k = .ok gates,
      ∀ k ≥ 1, ∃ gates, Cnot.forMatrix m k = .ok gates,
      Set.InjOn m.apply (Set.Iio (2 ^ m.size))] ∧
    (m.isInvertible = false →
      m.inverse = .error .singular ∧
      Cnot.eliminationOrder m = .error .singular ∧
      ∀ k ≥ 1, Cnot.forMatrix m k = .error .singular) := by
  constructor
  · rw [injOn_apply_iff_isUnit]
    tfae_have 1 ↔ 2 := beq_iff_eq
    tfae_have 1 ↔ 7 := isInvertible_iff_isUnit
    tfae_have 3 → 7 := fun ⟨_, hi⟩ => isUnit_of_inverse hi
    tfae_have 7 → 3 := fun hunit =>
      have ⟨i, hi, _⟩ := exists_inverse_of_isUnit hm hunit
      ⟨i, hi⟩
    tfae_have 4 → 7 := fun ⟨_, ho⟩ => Cnot.isUnit_of_eliminationOrder ho
    tfae_have 7 → 4 := fun hunit =>
      have ⟨order, ho, _⟩ := Cnot.exists_eliminationOrder hunit
      ⟨order, ho⟩
    tfae_have 6 → 5 := fun h => ⟨1, Nat.le_refl 1, h 1 (Nat.le_refl 1)⟩
    tfae_have 5 → 7 := fun ⟨_, hk, _, hg⟩ => by
      by_contra hunit
      rw [Cnot.forMatrix_eq_singular hunit hk] at hg
      cases hg
    tfae_have 7 → 6 := fun hunit k hk =>
      have ⟨gates, hg, _⟩ := Cnot.exists_forMatrix hm hunit hk
      ⟨gates, hg⟩
    tfae_finish
  · intro hsingular
    have hunit : ¬IsUnit (rowMatrix m.size m.rows) := by
      rw [← isInvertible_iff_isUnit, hsingular]
      exact Bool.false_ne_true
    exact ⟨inverse_eq_singular hunit, Cnot.eliminationOrder_eq_singular hunit,
      fun k hk => Cnot.forMatrix_eq_singular hunit hk⟩

/-- Four rows that add up to zero, any three of them independent, and a matrix
of full rank with a zero on its diagonal. -/
theorem singularity_tests_agree_both_ways :
    BinaryMatrix.WellFormed ⟨[3, 6, 12, 9]⟩ ∧ BinaryMatrix.WellFormed ⟨[6, 3, 13, 24, 9]⟩ ∧
    BinaryMatrix.inverse ⟨[3, 6, 12, 9]⟩ = .error .singular ∧
    Cnot.forMatrix ⟨[3, 6, 12, 9]⟩ 2 = .error .singular ∧
    ¬Set.InjOn (BinaryMatrix.apply ⟨[3, 6, 12, 9]⟩) (Set.Iio 16) ∧
    Set.InjOn (BinaryMatrix.apply ⟨[6, 3, 13, 24, 9]⟩) (Set.Iio 32) := by
  have hm : BinaryMatrix.WellFormed ⟨[3, 6, 12, 9]⟩ := ⟨by decide, by decide⟩
  have hm' : BinaryMatrix.WellFormed ⟨[6, 3, 13, 24, 9]⟩ := ⟨by decide, by decide⟩
  have hsingular : BinaryMatrix.isInvertible ⟨[3, 6, 12, 9]⟩ = false := by decide +kernel
  have hregular : BinaryMatrix.isInvertible ⟨[6, 3, 13, 24, 9]⟩ = true := by decide +kernel
  obtain ⟨htests, hrefused⟩ := singularity_tests_agree _ hm
  obtain ⟨hinverse, -, hgates⟩ := hrefused hsingular
  refine ⟨hm, hm', hinverse, hgates 2 (by decide), fun hinj => ?_,
    ((singularity_tests_agree _ hm').1.out 0 6).mp hregular⟩
  have hinvertible := (htests.out 6 0).mp hinj
  rw [hsingular] at hinvertible
  cases hinvertible

end CircuitSynthesis
