import CircuitSynthesis.Proofs.BinaryMatrix.Triangular
import CircuitSynthesis.Proofs.Cnot.RowOperations

/-!
# Elimination in blocks

What holds while the columns are cleared from left to right
(`Progress.Stage`): the rows are the start rows after the additions performed
so far, the cleared columns are triangular, and rows that started out lower
triangular are still so. Cancelling equal patterns inside a block and clearing
a column keep all of it. Clearing a column can only fail when the matrix is
singular, and on a lower triangular start the diagonal never needs repair.
-/

namespace CircuitSynthesis

/-- Ones on the diagonal and zeros to the right of it. -/
def LowerUnitriangular (n : Nat) (rows : List Nat) : Prop :=
  ∀ i < n, (rows.getD i 0).testBit i = true ∧ ∀ j, i < j → (rows.getD i 0).testBit j = false

theorem LowerUnitriangular.addRow {n : Nat} {rows : List Nat} (h : LowerUnitriangular n rows)
    (hlength : rows.length = n) {dst src : Nat} (hsrc : src < dst) (hdst : dst < n) :
    LowerUnitriangular n (addRow rows dst src) := by
  have hadded : ∀ j, src < j → (rows.getD src 0).testBit j = false :=
    (h src (by omega)).2
  intro i hi
  rw [getD_addRow (by omega)]
  by_cases hid : i = dst
  · subst hid
    rw [if_pos rfl]
    refine ⟨?_, fun j hj => ?_⟩
    · rw [Nat.testBit_xor, (h i hi).1, hadded i hsrc]
      rfl
    · rw [Nat.testBit_xor, (h i hi).2 j hj, hadded j (by omega)]
      rfl
  · rw [if_neg hid]
    exact h i hi

/-- Lower and upper triangular rows with ones on the diagonal are the units. -/
theorem LowerUnitriangular.eq_units {n : Nat} {rows : List Nat} (h : LowerUnitriangular n rows)
    (hupper : TriangularTo n n rows) (hlength : rows.length = n) : rows = Bits.units n := by
  apply eq_of_getD_eq (by rw [hlength, Bits.length_units])
  intro i hi
  rw [hlength] at hi
  rw [getD_units hi]
  apply Nat.eq_of_testBit_eq
  intro j
  rw [Nat.testBit_two_pow]
  rcases Nat.lt_trichotomy j i with hj | rfl | hj
  · rw [hupper.below (by omega) hj hi]
    exact (decide_eq_false (by omega)).symm
  · rw [(h j hi).1]
    exact (decide_eq_true rfl).symm
  · rw [(h i hi).2 j hj]
    exact (decide_eq_false (by omega)).symm

/-- The transpose of an upper triangle is a lower one. -/
theorem TriangularTo.lowerUnitriangular_transpose {n : Nat} {rows : List Nat}
    (h : TriangularTo n n rows) (hlength : rows.length = n) :
    LowerUnitriangular n (BinaryMatrix.transpose ⟨rows⟩).rows := by
  intro i hi
  have hbit : ∀ j, ((BinaryMatrix.transpose ⟨rows⟩).rows.getD i 0).testBit j =
      (decide (j < n) && (rows.getD j 0).testBit i) := by
    intro j
    simp [BinaryMatrix.transpose, BinaryMatrix.size, BinaryMatrix.row, hlength, hi]
  refine ⟨?_, fun j hj => ?_⟩
  · rw [hbit, h.diagonal hi, decide_eq_true hi]
    rfl
  · rw [hbit]
    by_cases hjn : j < n
    · rw [h.below hi hj hjn, Bool.and_false]
    · rw [decide_eq_false hjn, Bool.false_and]

namespace Cnot.Progress

/-- The first `k` columns are cleared, by additions that can be read off. -/
structure Stage (n k : Nat) (start : List Nat) (s : Progress) : Prop where
  rows_eq : s.rows = run start s.performed.reverse
  wellFormed : ∀ g ∈ s.performed, g.WellFormed n
  triangular : TriangularTo n k s.rows
  lower : LowerUnitriangular n start → LowerUnitriangular n s.rows

variable {n k : Nat} {start : List Nat} {s : Progress}

theorem Stage.length_eq (h : Stage n k start s) (hstart : start.length = n) :
    s.rows.length = n := by
  rw [h.rows_eq, length_run, hstart]

theorem Stage.isUnit (h : Stage n k start s) (hstart : start.length = n)
    (hunit : IsUnit (rowMatrix n start)) : IsUnit (rowMatrix n s.rows) := by
  rw [h.rows_eq]
  exact isUnit_rowMatrix_run (fun g hg => h.wellFormed g (List.mem_reverse.mp hg)) hstart hunit

/-- An addition of a row from `k` on keeps the stage, if it also keeps lower
triangular rows. -/
theorem Stage.perform (h : Stage n k start s) (hstart : start.length = n) {g : Cnot}
    (hg : g.WellFormed n) (hk : k ≤ g.control)
    (hlower : LowerUnitriangular n s.rows → LowerUnitriangular n (act s.rows g)) :
    Stage n k start (s.perform g) := by
  refine ⟨?_, ?_, ?_, fun hs => hlower (h.lower hs)⟩
  · show act s.rows g = run start (g :: s.performed).reverse
    rw [List.reverse_cons, run_append, ← h.rows_eq]
    rfl
  · intro g' hg'
    rcases List.mem_cons.mp hg' with rfl | hg'
    · exact hg
    · exact h.wellFormed g' hg'
  · exact h.triangular.addRow (h.length_eq hstart) hg.target_lt hk hg.control_lt

/-- Adding a row to a later one. -/
theorem Stage.addDown (h : Stage n k start s) (hstart : start.length = n) {upper lower : Nat}
    (hk : k ≤ upper) (hlt : upper < lower) (hn : lower < n) :
    Stage n k start (s.perform ⟨upper, lower⟩) :=
  h.perform hstart ⟨Nat.lt_trans hlt hn, hn, Nat.ne_of_lt hlt⟩ hk
    fun hs => hs.addRow (h.length_eq hstart) hlt hn

/-- Adding a row to the diagonal row `k`, when the diagonal is zero: this does
not happen to lower triangular rows. -/
theorem Stage.repair (h : Stage n k start s) (hstart : start.length = n) {row : Nat}
    (hlt : k < row) (hn : row < n) (hzero : s.bit k k = false) :
    Stage n k start (s.perform ⟨row, k⟩) := by
  refine h.perform hstart ⟨hn, Nat.lt_trans hlt hn, (Nat.ne_of_lt hlt).symm⟩ (Nat.le_of_lt hlt) ?_
  intro hs
  have hone : s.bit k k = true := (hs k (by omega)).1
  rw [hone] at hzero
  cases hzero

/-! ## Cancelling equal patterns -/

/-- A row is skipped, remembered as the first of its pattern, or cancelled
against a row remembered with its pattern. -/
theorem cancelRow_cases (k width row : Nat) (s : Progress) (firsts : List (Nat × Nat)) :
    cancelRow k width (s, firsts) row = (s, firsts) ∨
    cancelRow k width (s, firsts) row =
      (s, ((s.rows.getD row 0 >>> k) % 2 ^ width, row) :: firsts) ∨
    ∃ first, ((s.rows.getD row 0 >>> k) % 2 ^ width, first) ∈ firsts ∧
      cancelRow k width (s, firsts) row = (s.perform ⟨first, row⟩, firsts) := by
  rw [cancelRow]
  split
  · exact .inl rfl
  · split
    · exact .inr (.inl rfl)
    · next first hlookup =>
      obtain ⟨l₁, l₂, rfl, -⟩ := List.lookup_eq_some_iff.mp hlookup
      exact .inr (.inr ⟨first, List.mem_append_right l₁ List.mem_cons_self, rfl⟩)

/-- Rows are only cancelled against earlier rows of the block. -/
theorem Stage.cancelRows (h : Stage n k start s) (hstart : start.length = n) (width : Nat)
    (count : Nat) (hcount : k + count ≤ n) :
    Stage n k start ((List.range' k count).foldl (cancelRow k width) (s, [])).1 ∧
      ∀ p ∈ ((List.range' k count).foldl (cancelRow k width) (s, [])).2,
        k ≤ p.2 ∧ p.2 < k + count := by
  induction count with
  | zero => exact ⟨h, by simp⟩
  | succ count ih =>
    obtain ⟨hstage, hfirsts⟩ := ih (by omega)
    rw [List.range'_concat, List.foldl_append]
    generalize (List.range' k count).foldl (cancelRow k width) (s, []) = state at hstage hfirsts ⊢
    obtain ⟨s', firsts⟩ := state
    have hkept : ∀ p ∈ firsts, k ≤ p.2 ∧ p.2 < k + (count + 1) := fun p hp =>
      ⟨(hfirsts p hp).1, Nat.lt_succ_of_lt (hfirsts p hp).2⟩
    simp only [Nat.one_mul, List.foldl_cons, List.foldl_nil]
    rcases cancelRow_cases k width (k + count) s' firsts with hrow | hrow | ⟨first, hmem, hrow⟩
    · rw [hrow]
      exact ⟨hstage, hkept⟩
    · rw [hrow]
      refine ⟨hstage, List.forall_mem_cons.mpr ⟨?_, hkept⟩⟩
      exact ⟨Nat.le_add_right k count, Nat.lt_succ_self _⟩
    · have hfirst := hfirsts _ hmem
      rw [hrow]
      exact ⟨hstage.addDown hstart hfirst.1 hfirst.2 (by omega), hkept⟩

/-! ## Clearing a column -/

theorem bit_perform {s : Progress} {g : Cnot} (h : g.target < s.rows.length) (i j : Nat) :
    (s.perform g).bit i j =
      if i = g.target then s.bit g.target j ^^ s.bit g.control j else s.bit i j := by
  unfold bit
  show ((act s.rows g).getD i 0).testBit j = _
  rw [getD_act h]
  split
  · rw [Nat.testBit_xor]
  · rfl

/-- The rows of column `k` between the diagonal and `row` are cleared, and
the flag says whether the diagonal is one. -/
structure ColumnStage (n k row : Nat) (start : List Nat) (state : Progress × Bool) : Prop where
  stage : Stage n k start state.1
  flag : state.2 = state.1.bit k k
  cleared : ∀ i, k < i → i < row → state.1.bit i k = false

theorem ColumnStage.clearEntry {row : Nat} {state : Progress × Bool}
    (h : ColumnStage n k row start state) (hstart : start.length = n) (hk : k < row)
    (hrow : row < n) : ColumnStage n k (row + 1) start (clearEntry k state row) := by
  obtain ⟨s, diagonal⟩ := state
  have hlength : s.rows.length = n := h.stage.length_eq hstart
  rw [Progress.clearEntry]
  by_cases hbit : s.bit row k = true
  · -- With the diagonal repaired if need be, the diagonal row clears the entry.
    rw [if_pos hbit]
    obtain ⟨s', hs', hstage, hdiagonal, hsame⟩ : ∃ s', (if diagonal then s
        else s.perform ⟨row, k⟩) = s' ∧ Stage n k start s' ∧ s'.bit k k = true ∧
        ∀ i, i ≠ k → s'.bit i k = s.bit i k := by
      have hflag : diagonal = s.bit k k := h.flag
      cases diagonal with
      | true => exact ⟨s, rfl, h.stage, hflag.symm, fun _ _ => rfl⟩
      | false =>
        refine ⟨s.perform ⟨row, k⟩, rfl, h.stage.repair hstart hk hrow hflag.symm, ?_,
          fun i hi => ?_⟩
        · rw [bit_perform (show k < s.rows.length by omega), if_pos rfl, ← hflag, hbit]
          rfl
        · rw [bit_perform (show k < s.rows.length by omega), if_neg hi]
    have hlength' : s'.rows.length = n := hstage.length_eq hstart
    show ColumnStage n k (row + 1) start (_, true)
    simp only [hs']
    refine ⟨hstage.addDown hstart (Nat.le_refl k) hk hrow, ?_, ?_⟩
    · rw [bit_perform (show row < s'.rows.length by omega), if_neg (show k ≠ row by omega)]
      exact hdiagonal.symm
    · intro i hi hi'
      rw [bit_perform (show row < s'.rows.length by omega)]
      by_cases heq : i = row
      · rw [if_pos heq, hsame row (by omega), hbit, hdiagonal]
        rfl
      · rw [if_neg heq, hsame i (by omega)]
        exact h.cleared i hi (by omega)
  · rw [if_neg hbit]
    refine ⟨h.stage, h.flag, fun i hi hi' => ?_⟩
    rcases Nat.lt_succ_iff_lt_or_eq.mp hi' with hlt | rfl
    · exact h.cleared i hi hlt
    · simpa using hbit

theorem columnStage_run (h : Stage n k start s) (hstart : start.length = n) (count : Nat)
    (hcount : k + 1 + count ≤ n) :
    ColumnStage n k (k + 1 + count) start
      ((List.range' (k + 1) count).foldl (clearEntry k) (s, s.bit k k)) := by
  induction count with
  | zero => exact ⟨h, rfl, fun i hi hi' => absurd hi' (by omega)⟩
  | succ count ih =>
    rw [List.range'_concat, List.foldl_append, Nat.one_mul]
    exact (ih (by omega)).clearEntry hstart (by omega) (by omega)

/-- A column that is cleared to the end and has its one on the diagonal
extends the triangular part. -/
theorem ColumnStage.done {state : Progress × Bool} (h : ColumnStage n k n start state)
    (hflag : state.2 = true) : Stage n (k + 1) start state.1 := by
  refine ⟨h.stage.rows_eq, h.stage.wellFormed, ?_, h.stage.lower⟩
  intro j hj
  rcases Nat.lt_succ_iff_lt_or_eq.mp hj with hlt | rfl
  · exact h.stage.triangular j hlt
  · exact ⟨h.flag.symm.trans hflag, h.cleared⟩

/-- All entries of the column are visited, and the column counts as cleared if
its diagonal is one in the end. -/
theorem Stage.exists_columnStage (h : Stage n k start s) (hstart : start.length = n) (hk : k < n) :
    ∃ state, ColumnStage n k n start state ∧
      s.clearColumn k = if state.2 then some state.1 else none := by
  have hcolumn := columnStage_run h hstart (n - (k + 1)) (by omega)
  rw [Nat.add_sub_cancel' (show k + 1 ≤ n by omega)] at hcolumn
  refine ⟨_, hcolumn, ?_⟩
  rw [Progress.clearColumn, h.length_eq hstart]
  split <;> simp [*]

/-- Clearing a column of an invertible matrix succeeds and extends the
triangular part. -/
theorem Stage.clearColumn (h : Stage n k start s) (hstart : start.length = n) (hk : k < n)
    (hunit : IsUnit (rowMatrix n start)) :
    ∃ s', s.clearColumn k = some s' ∧ Stage n (k + 1) start s' := by
  obtain ⟨state, hcolumn, hclear⟩ := h.exists_columnStage hstart hk
  -- With zeros below it, the only place for a pivot is the diagonal.
  have hdiagonal : state.2 = true := by
    obtain ⟨i, hki, hi, hbit⟩ :=
      hcolumn.stage.triangular.exists_pivot hk (hcolumn.stage.isUnit hstart hunit)
    rcases Nat.lt_or_eq_of_le hki with hlt | rfl
    · have hzero := hcolumn.cleared i hlt hi
      unfold bit at hzero
      rw [hbit] at hzero
      cases hzero
    · exact hcolumn.flag.trans hbit
  rw [if_pos hdiagonal] at hclear
  exact ⟨state.1, hclear, hcolumn.done hdiagonal⟩

/-- Clearing a column that succeeds extends the triangular part, whatever the
matrix. -/
theorem Stage.of_clearColumn (h : Stage n k start s) (hstart : start.length = n) (hk : k < n)
    {s' : Progress} (hs : s.clearColumn k = some s') : Stage n (k + 1) start s' := by
  obtain ⟨state, hcolumn, hclear⟩ := h.exists_columnStage hstart hk
  rw [hs] at hclear
  split at hclear
  · next hdiagonal =>
    cases hclear
    exact hcolumn.done hdiagonal
  · cases hclear

/-! ## Blocks -/

theorem Stage.clearColumns (h : Stage n k start s) (hstart : start.length = n)
    (hunit : IsUnit (rowMatrix n start)) (count : Nat) (hcount : k + count ≤ n) :
    ∃ s', (List.range' k count).foldlM Progress.clearColumn s = some s' ∧
      Stage n (k + count) start s' := by
  induction count with
  | zero => exact ⟨s, rfl, h⟩
  | succ count ih =>
    obtain ⟨s', hrun, hstage⟩ := ih (by omega)
    obtain ⟨s'', hcolumn, hstage'⟩ := hstage.clearColumn hstart (by omega) hunit
    refine ⟨s'', ?_, hstage'⟩
    rw [List.range'_concat, List.foldlM_append, hrun]
    simp [hcolumn]

theorem Stage.clearBlock (h : Stage n k start s) (hstart : start.length = n) (hk : k ≤ n)
    (hunit : IsUnit (rowMatrix n start)) (width : Nat) :
    ∃ s', s.clearBlock width k = some s' ∧ Stage n (min (k + width) n) start s' := by
  have hcancel := (h.cancelRows hstart width (n - k) (by omega)).1
  obtain ⟨s', hrun, hstage⟩ := hcancel.clearColumns hstart hunit (min (k + width) n - k) (by omega)
  refine ⟨s', ?_, by rwa [Nat.add_sub_cancel' (by omega)] at hstage⟩
  unfold Progress.clearBlock
  rw [h.length_eq hstart]
  exact hrun

end Progress

/-- Every block has a first column. -/
theorem blockStart_lt {n width i : Nat} (h : i < (n + width - 1) / width) : i * width < n := by
  have hwidth : width ≠ 0 := by
    rintro rfl
    rw [Nat.div_zero] at h
    omega
  have hdiv := Nat.div_mul_le_self (n + width - 1) width
  have hmul := Nat.mul_le_mul_right width (Nat.succ_le_of_lt h)
  rw [Nat.succ_mul] at hmul
  omega

/-- No block starts beyond the last column. -/
theorem blockStart_le {n width i : Nat} (h : i < (n + width - 1) / width) : i * width ≤ n :=
  Nat.le_of_lt (blockStart_lt h)

/-- The blocks together reach the last column. -/
theorem le_blocks_mul {n width : Nat} (h : 0 < width) : n ≤ (n + width - 1) / width * width := by
  have := Nat.lt_div_mul_add (a := n + width - 1) h
  omega

theorem triangulate_eq (width : Nat) (rows : List Nat) :
    triangulate width rows = (List.range ((rows.length + width - 1) / width)).foldlM
      (fun s i => Progress.clearBlock width s (i * width)) ⟨rows, []⟩ := by
  unfold triangulate blockStarts
  rw [List.foldlM_map]

theorem Progress.Stage.begin (n : Nat) (rows : List Nat) :
    Progress.Stage n 0 rows ⟨rows, []⟩ := ⟨rfl, by simp, triangularTo_zero n rows, id⟩

/-- Elimination of an invertible matrix succeeds for every block width. It ends
in an upper triangle, and in the identity if it started from a lower one. -/
theorem triangulate_of_isUnit {n width : Nat} {rows : List Nat} (hlength : rows.length = n)
    (hunit : IsUnit (rowMatrix n rows)) (hwidth : 0 < width) :
    ∃ s, triangulate width rows = some s ∧ Progress.Stage n n rows s := by
  -- After `count` blocks their columns are done, the last block being cut off at `n`.
  have hblocks : ∀ count ≤ (n + width - 1) / width,
      ∃ s, (List.range count).foldlM (fun s i => Progress.clearBlock width s (i * width))
        ⟨rows, []⟩ = some s ∧ Progress.Stage n (min (count * width) n) rows s := by
    intro count
    induction count with
    | zero =>
      rw [Nat.zero_mul, Nat.zero_min]
      exact fun _ => ⟨_, rfl, .begin n rows⟩
    | succ count ih =>
      intro hcount
      obtain ⟨s, hrun, hstage⟩ := ih (by omega)
      have hstart : count * width ≤ n := blockStart_le (by omega)
      rw [Nat.min_eq_left hstart] at hstage
      obtain ⟨s', hblock, hstage'⟩ := hstage.clearBlock hlength hstart hunit width
      refine ⟨s', ?_, by rwa [Nat.succ_mul]⟩
      rw [List.range_succ, List.foldlM_append, hrun]
      simp [hblock]
  obtain ⟨s, hrun, hstage⟩ := hblocks _ (Nat.le_refl _)
  rw [Nat.min_eq_right (le_blocks_mul hwidth)] at hstage
  refine ⟨s, ?_, hstage⟩
  rw [triangulate_eq, hlength]
  exact hrun

end CircuitSynthesis.Cnot
