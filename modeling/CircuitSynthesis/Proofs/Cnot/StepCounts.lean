import CircuitSynthesis.Proofs.Cnot.Triangulation
import Mathlib.Algebra.BigOperators.Intervals

/-!
# What the steps of elimination cost

The additions of elimination in blocks go down, from an earlier row to a later
one, except for repairs of the diagonal, which go up. So a list of additions is
as long as the downward additions to each row and the repairs together
(`length_eq_sum_additionsTo`), and these can be followed one by one:

* cancelling equal patterns adds to a row at most once, and leaves it with a
  zero in the first column of the block (`Progress.CancelCounts`);
* clearing a column adds once to each row that has a one there, and repairs the
  diagonal once if it was zero (`Progress.ColumnCounts`). The last column has no
  row left to repair it with.
-/

namespace CircuitSynthesis.Cnot

/-- How often an earlier row was added to row `r`. -/
def additionsTo (r : Nat) (gates : List Cnot) : Nat :=
  gates.countP fun g => g.control < g.target ∧ g.target = r

/-- How often a later row was added to an earlier one. -/
def repairs (gates : List Cnot) : Nat := gates.countP fun g => g.target < g.control

section Counts

variable {upper lower : Nat}

theorem additionsTo_down (h : upper < lower) (r : Nat) (gates : List Cnot) :
    additionsTo r (⟨upper, lower⟩ :: gates) = additionsTo r gates + if lower = r then 1 else 0 := by
  simp [additionsTo, List.countP_cons, h]

theorem additionsTo_up (h : upper < lower) (r : Nat) (gates : List Cnot) :
    additionsTo r (⟨lower, upper⟩ :: gates) = additionsTo r gates := by
  simp [additionsTo, Nat.not_lt_of_gt h]

theorem repairs_down (h : upper < lower) (gates : List Cnot) :
    repairs (⟨upper, lower⟩ :: gates) = repairs gates := by
  simp [repairs, Nat.not_lt_of_gt h]

theorem repairs_up (h : upper < lower) (gates : List Cnot) :
    repairs (⟨lower, upper⟩ :: gates) = repairs gates + 1 := by
  simp [repairs, h]

end Counts

theorem repairs_eq_zero_iff {gates : List Cnot} :
    repairs gates = 0 ↔ ∀ g ∈ gates, g.control ≤ g.target := by
  simp [repairs]

/-- Every addition goes down to some row or is a repair. -/
theorem length_eq_sum_additionsTo {n : Nat} {gates : List Cnot}
    (hgates : ∀ g ∈ gates, g.WellFormed n) :
    gates.length = ∑ r ∈ Finset.range n, additionsTo r gates + repairs gates := by
  induction gates with
  | nil => simp [additionsTo, repairs]
  | cons g gates ih =>
    obtain ⟨hg, hrest⟩ := List.forall_mem_cons.mp hgates
    obtain ⟨control, target⟩ := g
    rw [List.length_cons, ih hrest]
    rcases Nat.lt_or_gt_of_ne hg.ne with hdown | hup
    · have htarget : target ∈ Finset.range n := Finset.mem_range.mpr hg.target_lt
      rw [repairs_down hdown]
      simp only [additionsTo_down hdown, Finset.sum_add_distrib]
      rw [Finset.sum_ite_eq, if_pos htarget]
      omega
    · rw [repairs_up hup]
      simp only [additionsTo_up hup]
      omega

namespace Progress

variable {n k row width : Nat} {s s' : Progress}

@[simp] theorem length_rows_perform (s : Progress) (g : Cnot) :
    (s.perform g).rows.length = s.rows.length := length_act s.rows g

/-! ## Cancelling equal patterns -/

/-- Rows with the same pattern agree in the first column of the block. -/
theorem testBit_eq_of_pattern_eq {x y : Nat} (hwidth : 0 < width)
    (h : (x >>> k) % 2 ^ width = (y >>> k) % 2 ^ width) : x.testBit k = y.testBit k := by
  have hbit := congrArg (·.testBit 0) h
  simpa [hwidth] using hbit

/-- The rows of the block before `row` are done. A row that was cancelled cost
one addition and has a zero in column `k`; the others cost none. -/
structure CancelCounts (n k row width : Nat) (s : Progress)
    (state : Progress × List (Nat × Nat)) : Prop where
  length_eq : state.1.rows.length = n
  firsts : ∀ p ∈ state.2, k ≤ p.2 ∧ p.2 < row ∧
    (state.1.rows.getD p.2 0 >>> k) % 2 ^ width = p.1
  repairs_eq : repairs state.1.performed = repairs s.performed
  additionsTo_eq : ∀ r, additionsTo r state.1.performed = additionsTo r s.performed ∨
    k < r ∧ r < row ∧ additionsTo r state.1.performed = additionsTo r s.performed + 1 ∧
      state.1.bit r k = false

theorem CancelCounts.cancelRow {state : Progress × List (Nat × Nat)}
    (h : CancelCounts n k row width s state) (hwidth : 0 < width) (hk : k ≤ row) (hrow : row < n) :
    CancelCounts n k (row + 1) width s (cancelRow k width state row) := by
  obtain ⟨t, firsts⟩ := state
  have hlength : t.rows.length = n := h.length_eq
  have hfirsts : ∀ p ∈ firsts, k ≤ p.2 ∧ p.2 < row + 1 ∧
      (t.rows.getD p.2 0 >>> k) % 2 ^ width = p.1 := fun p hp =>
    have ⟨hle, hlt, hpattern⟩ := h.firsts p hp
    ⟨hle, Nat.lt_succ_of_lt hlt, hpattern⟩
  have hadditions : ∀ r, additionsTo r t.performed = additionsTo r s.performed ∨
      k < r ∧ r < row + 1 ∧ additionsTo r t.performed = additionsTo r s.performed + 1 ∧
        t.bit r k = false := fun r =>
    (h.additionsTo_eq r).imp_right fun ⟨hlt, hr, hrest⟩ => ⟨hlt, Nat.lt_succ_of_lt hr, hrest⟩
  rcases cancelRow_cases k width row t firsts with hcase | hcase | ⟨first, hmem, hcase⟩
  · rw [hcase]
    exact ⟨hlength, hfirsts, h.repairs_eq, hadditions⟩
  · rw [hcase]
    refine ⟨hlength, List.forall_mem_cons.mpr ⟨?_, hfirsts⟩, h.repairs_eq, hadditions⟩
    exact ⟨hk, Nat.lt_succ_self row, rfl⟩
  · obtain ⟨hle, hlt, hpattern⟩ := h.firsts _ hmem
    have hbits : ∀ i, (t.perform ⟨first, row⟩).bit i k =
        if i = row then t.bit row k ^^ t.bit first k else t.bit i k := fun i =>
      bit_perform (show row < t.rows.length by omega) i k
    rw [hcase]
    refine ⟨by rw [length_rows_perform, hlength], fun p hp => ?_, ?_, fun r => ?_⟩
    · obtain ⟨hle', hlt', hpattern'⟩ := h.firsts p hp
      refine ⟨hle', Nat.lt_succ_of_lt hlt', ?_⟩
      show ((act t.rows ⟨first, row⟩).getD p.2 0 >>> k) % 2 ^ width = p.1
      rw [getD_act (show row < t.rows.length by omega), if_neg (Nat.ne_of_lt hlt'), hpattern']
    · exact (repairs_down hlt t.performed).trans h.repairs_eq
    · show additionsTo r (⟨first, row⟩ :: t.performed) = _ ∨ _
      rw [show (t.perform ⟨first, row⟩).performed = ⟨first, row⟩ :: t.performed from rfl,
        additionsTo_down hlt, hbits]
      by_cases hr : r = row
      · -- The row has not been touched before, and loses its pattern now.
        subst hr
        have hsame : additionsTo r t.performed = additionsTo r s.performed :=
          (h.additionsTo_eq r).resolve_right fun ⟨_, hlt, _⟩ => Nat.lt_irrefl r hlt
        have hbit : t.bit first k = t.bit r k := testBit_eq_of_pattern_eq hwidth hpattern
        refine .inr ⟨Nat.lt_of_le_of_lt hle hlt, Nat.lt_succ_self r, ?_, ?_⟩
        · rw [if_pos rfl, hsame]
        · rw [if_pos rfl, hbit, Bool.xor_self]
      · rw [if_neg (Ne.symm hr), if_neg hr, Nat.add_zero]
        exact hadditions r

theorem cancelCounts_run (hlength : s.rows.length = n) (hwidth : 0 < width) (count : Nat)
    (hcount : k + count ≤ n) :
    CancelCounts n k (k + count) width s
      ((List.range' k count).foldl (Progress.cancelRow k width) (s, [])) := by
  induction count with
  | zero => exact ⟨hlength, by simp, rfl, fun _ => .inl rfl⟩
  | succ count ih =>
    rw [List.range'_concat, List.foldl_append, Nat.one_mul]
    exact (ih (by omega)).cancelRow hwidth (by omega) (by omega)

/-! ## Clearing a column -/

/-- The rows of column `k` between the diagonal and `row` are cleared: each cost
one addition if it had a one, and the diagonal cost a repair if it was zero and
is not any more. -/
structure ColumnCounts (n k row : Nat) (s : Progress) (state : Progress × Bool) : Prop where
  length_eq : state.1.rows.length = n
  bit_eq : ∀ r, row ≤ r → state.1.bit r k = s.bit r k
  additionsTo_eq : ∀ r, additionsTo r state.1.performed =
    additionsTo r s.performed + if k < r ∧ r < row ∧ s.bit r k then 1 else 0
  repairs_eq : repairs state.1.performed + (s.bit k k).toNat = repairs s.performed + state.2.toNat
  flag : state.2 = true → s.bit k k = true ∨ k + 1 < row

/-- What the repair of the diagonal costs. -/
theorem repair_counts (hlength : s.rows.length = n) (hk : k < row) (hrow : row < n)
    (diagonal : Bool) :
    ∃ t, (if diagonal then s else s.perform ⟨row, k⟩) = t ∧ t.rows.length = n ∧
      (∀ i, i ≠ k → t.bit i k = s.bit i k) ∧
      (∀ r, additionsTo r t.performed = additionsTo r s.performed) ∧
      repairs t.performed + diagonal.toNat = repairs s.performed + 1 := by
  cases diagonal with
  | true => exact ⟨s, rfl, hlength, fun _ _ => rfl, fun _ => rfl, rfl⟩
  | false =>
    refine ⟨s.perform ⟨row, k⟩, rfl, by rw [length_rows_perform, hlength], fun i hi => ?_,
      fun r => additionsTo_up hk r s.performed, repairs_up hk s.performed⟩
    rw [bit_perform (show k < s.rows.length by omega), if_neg hi]

theorem ColumnCounts.clearEntry {state : Progress × Bool} (h : ColumnCounts n k row s state)
    (hk : k < row) (hrow : row < n) :
    ColumnCounts n k (row + 1) s (clearEntry k state row) := by
  obtain ⟨t, diagonal⟩ := state
  have hbit : t.bit row k = s.bit row k := h.bit_eq row (Nat.le_refl row)
  -- One more row makes a difference to that row only, and only if it has a one.
  have hsplit : ∀ r, (r = row → s.bit r k = false) →
      ((k < r ∧ r < row + 1 ∧ s.bit r k = true) ↔ (k < r ∧ r < row ∧ s.bit r k = true)) := by
    intro r hr
    rw [Nat.lt_succ_iff_lt_or_eq]
    grind
  rw [Progress.clearEntry]
  by_cases hone : s.bit row k = true
  · rw [if_pos (hbit.trans hone)]
    have hlength : t.rows.length = n := h.length_eq
    obtain ⟨t', ht', hlength', hsame, hadditions, hrepairs⟩ :=
      repair_counts hlength hk hrow diagonal
    have hbits : ∀ i, (t'.perform ⟨k, row⟩).bit i k =
        if i = row then t'.bit row k ^^ t'.bit k k else t'.bit i k := fun i =>
      bit_perform (show row < t'.rows.length by omega) i k
    show ColumnCounts n k (row + 1) s (_, true)
    simp only [ht']
    refine ⟨by rw [length_rows_perform, hlength'], fun r hr => ?_, fun r => ?_, ?_, fun _ => ?_⟩
    · rw [hbits, if_neg (show r ≠ row by omega), hsame r (by omega)]
      exact h.bit_eq r (by omega)
    · show additionsTo r (⟨k, row⟩ :: t'.performed) = _
      rw [additionsTo_down hk, hadditions, h.additionsTo_eq]
      by_cases hr : r = row
      · subst hr
        simp [hone, hk]
      · simp only [hsplit r (absurd · hr), if_neg (Ne.symm hr), Nat.add_zero]
    · have hbefore : repairs t.performed + (s.bit k k).toNat =
        repairs s.performed + diagonal.toNat := h.repairs_eq
      show repairs (⟨k, row⟩ :: t'.performed) + (s.bit k k).toNat = repairs s.performed + 1
      rw [repairs_down hk]
      omega
    · exact .inr (Nat.succ_lt_succ hk)
  · rw [if_neg (by rwa [hbit])]
    refine ⟨h.length_eq, fun r hr => h.bit_eq r (by omega), fun r => ?_, h.repairs_eq,
      fun hflag => (h.flag hflag).imp_right Nat.lt_succ_of_lt⟩
    simp only [hsplit r (fun hr => by rw [hr]; exact Bool.eq_false_iff.mpr hone)]
    exact h.additionsTo_eq r

theorem columnCounts_run (hlength : s.rows.length = n) (count : Nat)
    (hcount : k + 1 + count ≤ n) :
    ColumnCounts n k (k + 1 + count) s
      ((List.range' (k + 1) count).foldl (Progress.clearEntry k) (s, s.bit k k)) := by
  induction count with
  | zero =>
    refine ⟨hlength, fun _ _ => rfl, fun r => ?_, rfl, .inl⟩
    rw [if_neg (by omega), Nat.add_zero]
    rfl
  | succ count ih =>
    rw [List.range'_concat, List.foldl_append, Nat.one_mul]
    exact (ih (by omega)).clearEntry (by omega) (by omega)

theorem columnCounts_of_clearColumn (hlength : s.rows.length = n) (hk : k < n)
    (hs : s.clearColumn k = some s') : ColumnCounts n k n s (s', true) := by
  have hcounts := columnCounts_run hlength (k := k) (n - (k + 1)) (by omega)
  rw [Nat.add_sub_cancel' (show k + 1 ≤ n by omega)] at hcounts
  rw [Progress.clearColumn, hlength] at hs
  split at hs
  · next heq =>
    cases hs
    rwa [heq] at hcounts
  · cases hs

end Progress

end CircuitSynthesis.Cnot
