import CircuitSynthesis.Proofs.BinaryMatrix.Independence
import CircuitSynthesis.Proofs.Cnot.Singularity
import CircuitSynthesis.Proofs.Cnot.StepCounts

/-!
# How many CNOTs a matrix takes

One elimination in blocks adds to row `r` at most `r` times, once for each
column left of the diagonal, whatever the block width: a row that is cancelled
against another one at the start of a block has nothing left to clear in the
first column of that block, so the addition is paid for there
(`Progress.Charged`). Besides, each column but the last may need one repair of
its diagonal (`Progress.Sparing`).

Repairs are never needed where the leading squares of the matrix have
independent rows. Lower triangles are of this kind, so the second elimination
performs none, and so are matrices with their rows in elimination order
(`leadingRegular_of_eliminationOrder`), where the first one performs none
either.
-/

namespace CircuitSynthesis

variable {n k : Nat}

/-! ## Rows that need no repair -/

theorem triangularTo_units (n : Nat) : TriangularTo n n (Bits.units n) := by
  intro j hj
  refine ⟨?_, fun i hji hi => ?_⟩
  · rw [getD_units hj, Nat.testBit_two_pow_self]
  · rw [getD_units hi, Nat.testBit_two_pow_of_ne (Nat.ne_of_gt hji)]

/-- Each row of a lower triangle is a unit with earlier ones added. -/
theorem LowerUnitriangular.leadingRegular {rows : List Nat} (h : LowerUnitriangular n rows) :
    LeadingRegular n rows := by
  have hadded : EarlierAdded n n (Bits.units n) rows := by
    intro r hr
    have hlt : rows.getD r 0 ^^^ 2 ^ r < 2 ^ r := by
      refine Nat.lt_pow_two_of_testBit _ fun i hi => ?_
      rw [Nat.testBit_xor, Nat.testBit_two_pow]
      rcases Nat.eq_or_lt_of_le hi with rfl | hlt
      · rw [(h r hr).1, decide_eq_true rfl]
        rfl
      · rw [(h r hr).2 i hlt, decide_eq_false (Nat.ne_of_lt hlt)]
        rfl
    have hpow : 2 ^ r ≤ 2 ^ n := Nat.pow_le_pow_right (by omega) (Nat.le_of_lt hr)
    refine ⟨rows.getD r 0 ^^^ 2 ^ r, by rwa [Nat.min_eq_left (Nat.le_of_lt hr)], ?_⟩
    rw [combination_units (by omega), getD_units hr, Nat.xor_comm (rows.getD r 0),
      ← Nat.xor_assoc, Nat.xor_self, Nat.zero_xor]
  exact (triangularTo_units n).leadingRegular.of_earlierAdded hadded

section Pivot

variable {rows origin : List Nat} {pivot : Nat}

/-- Exchanging two rows from `k` on, before and after earlier ones were added. -/
theorem EarlierAdded.exchange (h : EarlierAdded n k rows origin) (hrows : rows.length = n)
    (horigin : origin.length = n) (hle : k ≤ pivot) (hlt : pivot < n) :
    EarlierAdded n k (swapEntries rows k pivot) (swapEntries origin k pivot) := by
  have hentry : ∀ i, (swapEntries rows k pivot).getD i 0 =
      rows.getD (if i = pivot then k else if i = k then pivot else i) 0 := fun i =>
    getD_swapEntries (by omega) (by omega) i 0
  intro r hr
  obtain ⟨u, hu, hsum⟩ := h (if r = pivot then k else if r = k then pivot else r) (by grind)
  have hexp : min (if r = pivot then k else if r = k then pivot else r) k ≤ min r k := by grind
  have hu' : u < 2 ^ min r k := Nat.lt_of_lt_of_le hu (Nat.pow_le_pow_right (by omega) hexp)
  refine ⟨u, hu', ?_⟩
  have hsums : combination (swapEntries rows k pivot) u = combination rows u := by
    refine combination_congr_of_lt (length_swapEntries rows k pivot) (fun i hi => ?_) hu'
    rw [hentry, if_neg (by omega), if_neg (by omega)]
  rw [getD_swapEntries (by omega) (by omega), hsum, hentry, hsums]

/-- Adding row `k` to later rows can be undone by adding it once more. -/
theorem EarlierAdded.addBelow (h : EarlierAdded n k rows origin) :
    EarlierAdded n (k + 1) (addBelow k k rows) origin := by
  have hbefore : ∀ r ≤ k, (CircuitSynthesis.addBelow k k rows).getD r 0 = rows.getD r 0 :=
    fun r hr => by rw [getD_addBelow, if_neg (by omega)]
  intro r hr
  obtain ⟨u, hu, hsum⟩ := h r hr
  have huk : u < 2 ^ k := Nat.lt_of_lt_of_le hu (Nat.pow_le_pow_right (by omega) (by omega))
  have hsums : combination (CircuitSynthesis.addBelow k k rows) u = combination rows u :=
    combination_congr_of_lt (length_addBelow k k rows)
      (fun i hi => hbefore i (Nat.le_of_lt hi)) huk
  rw [getD_addBelow, hsum]
  by_cases hadded : k < r ∧ (rows.getD r 0).testBit k = true
  · have hpow : 2 ^ k < 2 ^ (k + 1) := Nat.pow_lt_pow_right (by omega) (by omega)
    refine ⟨2 ^ k ^^^ u, ?_, ?_⟩
    · rw [Nat.min_eq_right (show k + 1 ≤ r from hadded.1)]
      exact Nat.xor_lt_two_pow hpow (by omega)
    · rw [if_pos hadded, combination_xor, combination_two_pow, hbefore k (Nat.le_refl k), hsums,
        Nat.xor_assoc, ← Nat.xor_assoc (rows.getD k 0), Nat.xor_self, Nat.zero_xor]
  · have hpow : 2 ^ min r k ≤ 2 ^ min r (k + 1) := Nat.pow_le_pow_right (by omega) (by omega)
    refine ⟨u, by omega, ?_⟩
    rw [if_neg hadded, hsums]

end Pivot

namespace Cnot

open BinaryMatrix

variable {m : BinaryMatrix}

/-- In elimination order the leading squares of a matrix have independent rows. -/
theorem leadingRegular_of_eliminationOrder {order : List Nat}
    (h : eliminationOrder m = .ok order) : LeadingRegular m.size (order.map m.row) := by
  have hfst : (m.rows.zip (List.range m.size)).map Prod.fst = m.rows :=
    List.map_fst_zip (by simp [size])
  have hsnd : (m.rows.zip (List.range m.size)).map Prod.snd = List.range m.size :=
    List.map_snd_zip (by simp [size])
  -- The rows in the order found so far are the current ones with earlier ones added.
  obtain ⟨pairs, hrun, helim, hadded⟩ :=
    elimination_run orderStep (fun k i => k < i)
      (fun k pairs => EarlierAdded m.size k (pairs.map Prod.fst) ((pairs.map Prod.snd).map m.row))
      (show m.rows.length = m.size from rfl) (isUnit_of_eliminationOrder h) hfst
      (by
        rw [hfst, hsnd, map_row_range]
        exact earlierAdded_of_eq 0 fun _ _ => rfl)
      (fun _ _ hi => hi) Nat.lt_irrefl
      (fun helim hk hpivot hadded => by
        obtain ⟨pairs', hstep, hfst', hsnd'⟩ := orderStep_of_pivot hk hpivot
        obtain ⟨hle, hlt, -⟩ := pivot_of_firstFrom? helim.length_eq hpivot
        have hlength := helim.length_eq
        rw [List.length_map] at hlength
        refine ⟨pairs', hstep, hfst', ?_⟩
        rw [hfst', hsnd', pivotRows_eq_addBelow,
          map_swapEntries m.row (by simpa using hk) (by simpa [hlength] using hlt)]
        exact (hadded.exchange helim.length_eq (by simpa using hlength) hle hlt).addBelow)
      (Nat.le_refl m.size)
  rw [eliminationOrder, hrun] at h
  cases h
  exact helim.triangular.leadingRegular.of_earlierAdded hadded

/-- Without repairs the leading squares keep independent rows. -/
theorem leadingRegular_run {rows : List Nat} (h : LeadingRegular n rows)
    (hlength : rows.length = n) {gates : List Cnot} (hgates : ∀ g ∈ gates, g.WellFormed n)
    (hdown : repairs gates = 0) : LeadingRegular n (run rows gates) := by
  rw [repairs_eq_zero_iff] at hdown
  induction gates generalizing rows with
  | nil => exact h
  | cons g gates ih =>
    obtain ⟨hg, hrest⟩ := List.forall_mem_cons.mp hgates
    obtain ⟨hle, hdown⟩ := List.forall_mem_cons.mp hdown
    have hlt : g.control < g.target := Nat.lt_of_le_of_ne hle hg.ne
    exact ih (h.addRow hlength hlt hg.target_lt) (by rw [length_act, hlength]) hrest hdown

namespace Progress

variable {start : List Nat} {s s' : Progress} {width : Nat}

/-! ## Repairs -/

/-- The first `k` columns are cleared with at most one repair each, none in the
last column of the matrix, and none at all where they are not needed. -/
structure Sparing (n k : Nat) (start : List Nat) (s : Progress) : Prop where
  stage : Stage n k start s
  repairs_le : repairs s.performed ≤ min k (n - 1)
  repairs_eq_zero : LeadingRegular n start → repairs s.performed = 0

theorem Sparing.begin (n : Nat) (rows : List Nat) : Sparing n 0 rows ⟨rows, []⟩ :=
  ⟨.begin n rows, Nat.zero_le _, fun _ => rfl⟩

/-- The diagonal of the next column is one as long as no repairs were needed. -/
theorem Sparing.bit_diagonal (h : Sparing n k start s) (hstart : start.length = n) (hk : k < n)
    (hregular : LeadingRegular n start) : s.bit k k = true := by
  have hgates : ∀ g ∈ s.performed.reverse, g.WellFormed n := fun g hg =>
    h.stage.wellFormed g (List.mem_reverse.mp hg)
  have hnone : repairs s.performed.reverse = 0 := by
    rw [repairs, List.countP_reverse]
    exact h.repairs_eq_zero hregular
  have hrows : LeadingRegular n s.rows := by
    rw [h.stage.rows_eq]
    exact leadingRegular_run hregular hstart hgates hnone
  exact hrows.diagonal h.stage.triangular hk

theorem Sparing.cancelRows (h : Sparing n k start s) (hstart : start.length = n)
    (hwidth : 0 < width) (hk : k < n) :
    Sparing n k start ((List.range' k (n - k)).foldl (cancelRow k width) (s, [])).1 := by
  have hcounts := cancelCounts_run (k := k) (h.stage.length_eq hstart) hwidth (n - k) (by omega)
  refine ⟨(h.stage.cancelRows hstart width (n - k) (by omega)).1, ?_, fun hregular => ?_⟩
  · rw [hcounts.repairs_eq]
    exact h.repairs_le
  · rw [hcounts.repairs_eq]
    exact h.repairs_eq_zero hregular

theorem Sparing.of_clearColumn (h : Sparing n k start s) (hstart : start.length = n) (hk : k < n)
    (hs : s.clearColumn k = some s') : Sparing n (k + 1) start s' := by
  have hcounts := columnCounts_of_clearColumn (h.stage.length_eq hstart) hk hs
  have hrepairs : repairs s'.performed + (s.bit k k).toNat = repairs s.performed + 1 :=
    hcounts.repairs_eq
  have hle := h.repairs_le
  refine ⟨h.stage.of_clearColumn hstart hk hs, ?_, fun hregular => ?_⟩
  · rcases hcounts.flag rfl with hone | hlt
    · rw [hone, Bool.toNat_true] at hrepairs
      omega
    · omega
  · have hzero := h.repairs_eq_zero hregular
    rw [h.bit_diagonal hstart hk hregular, Bool.toNat_true] at hrepairs
    omega

/-! ## Charging additions to columns -/

/-- No row cost more additions than there are cleared columns left of its
diagonal. -/
structure Charged (n k : Nat) (s : Progress) : Prop where
  length_eq : s.rows.length = n
  additionsTo_le : ∀ r < n, additionsTo r s.performed ≤ min k r

/-- Some rows may have been charged for column `k` already, and will not be
charged again for it. -/
structure Prepaid (n k : Nat) (s : Progress) : Prop where
  length_eq : s.rows.length = n
  additionsTo_le : ∀ r < n, additionsTo r s.performed ≤ min k r ∨
    k < r ∧ additionsTo r s.performed ≤ k + 1 ∧ s.bit r k = false

theorem Charged.prepaid (h : Charged n k s) : Prepaid n k s :=
  ⟨h.length_eq, fun r hr => .inl (h.additionsTo_le r hr)⟩

theorem Charged.cancelRows (h : Charged n k s) (hwidth : 0 < width) (hk : k < n) :
    Prepaid n k ((List.range' k (n - k)).foldl (cancelRow k width) (s, [])).1 := by
  have hcounts := cancelCounts_run (k := k) h.length_eq hwidth (n - k) (by omega)
  refine ⟨hcounts.length_eq, fun r hr => ?_⟩
  have hle := h.additionsTo_le r hr
  rcases hcounts.additionsTo_eq r with hsame | ⟨hlt, -, hone, hbit⟩
  · exact .inl (by omega)
  · exact .inr ⟨hlt, by omega, hbit⟩

theorem Prepaid.of_clearColumn (h : Prepaid n k s) (hk : k < n)
    (hs : s.clearColumn k = some s') : Charged n (k + 1) s' := by
  have hcounts := columnCounts_of_clearColumn h.length_eq hk hs
  refine ⟨hcounts.length_eq, fun r hr => ?_⟩
  have hadditions : additionsTo r s'.performed = _ := hcounts.additionsTo_eq r
  rcases h.additionsTo_le r hr with hle | ⟨hlt, hle, hbit⟩
  · split at hadditions <;> omega
  · rw [hbit, if_neg (by simp)] at hadditions
    omega

end Progress

/-! ## The bound -/

section Triangulate

variable {width : Nat} {rows : List Nat} {s : Progress}

theorem sparing_of_triangulate (hlength : rows.length = n) (hwidth : 0 < width)
    (h : triangulate width rows = some s) : Progress.Sparing n n rows s :=
  invariant_of_triangulate (fun k t => Progress.Sparing n k rows t)
    (fun k t => Progress.Sparing n k rows t) hwidth (fun _ _ ht => ht.stage.length_eq hlength)
    (fun _ _ ht => ht) (fun _ hk _ ht => ht.cancelRows hlength hwidth hk)
    (fun _ hk _ _ ht hclear => ht.of_clearColumn hlength hk hclear) (.begin n rows) h

theorem charged_of_triangulate (hlength : rows.length = n) (hwidth : 0 < width)
    (h : triangulate width rows = some s) : Progress.Charged n n s :=
  invariant_of_triangulate (fun k t => Progress.Charged n k t)
    (fun k t => Progress.Prepaid n k t) hwidth (fun _ _ ht => ht.length_eq)
    (fun _ _ ht => ht.prepaid) (fun _ hk _ ht => ht.cancelRows hwidth hk)
    (fun _ hk _ _ ht hclear => ht.of_clearColumn hk hclear)
    ⟨hlength, fun _ _ => Nat.zero_le _⟩ h

/-- One elimination takes an addition for each entry below the diagonal, and its
repairs. -/
theorem length_performed_le (hlength : rows.length = n) (hwidth : 0 < width)
    (h : triangulate width rows = some s) :
    s.performed.length ≤ n * (n - 1) / 2 + repairs s.performed := by
  have hcharged := charged_of_triangulate hlength hwidth h
  have hsum : ∑ r ∈ Finset.range n, additionsTo r s.performed ≤ ∑ r ∈ Finset.range n, r := by
    refine Finset.sum_le_sum fun r hr => ?_
    have hle := hcharged.additionsTo_le r (Finset.mem_range.mp hr)
    omega
  rw [Finset.sum_range_id] at hsum
  rw [length_eq_sum_additionsTo (stage_of_triangulate hlength hwidth h).wellFormed]
  omega

end Triangulate

/-- Both eliminations together, with the repairs of the first. -/
theorem exists_forMatrix_length_le (hn : m.size = n) (hm : m.WellFormed)
    (hunit : IsUnit (rowMatrix n m.rows)) {k : Nat} (hk : 0 < k) :
    ∃ gates, forMatrix m k = .ok gates ∧ Makes n gates m.rows ∧
      gates.length ≤ n * (n - 1) + (n - 1) ∧
      (LeadingRegular n m.rows → gates.length ≤ n * (n - 1)) := by
  subst hn
  obtain ⟨gates, hgates, hmakes⟩ := exists_forMatrix hm hunit hk
  refine ⟨gates, hgates, hmakes, ?_⟩
  rcases Nat.eq_zero_or_pos m.size with hsize | hsize
  · rw [forMatrix_of_size_eq_zero hk hsize] at hgates
    cases hgates
    exact ⟨Nat.zero_le _, fun _ => Nat.zero_le _⟩
  · have hwidth : 0 < min k m.size := by omega
    obtain ⟨lower, upper, hlower, hbetween, hupper, -⟩ :=
      triangulate_twice hm.isSquare hunit hwidth
    have haccept := ofRows_of_isSquare hbetween hm.size_le
    rw [forMatrix_eq_ok hk hsize hlower haccept hupper] at hgates
    cases hgates
    have hsparing : Progress.Sparing m.size m.size m.rows lower :=
      sparing_of_triangulate rfl hwidth hlower
    have hlength : lower.rows.length = m.size := hsparing.stage.length_eq rfl
    have htranspose : (BinaryMatrix.transpose ⟨lower.rows⟩).rows.length = m.size :=
      (isSquare_transpose hlength).length_eq
    -- The second elimination starts from a lower triangle.
    have hnone : repairs upper.performed = 0 :=
      (sparing_of_triangulate htranspose hwidth hupper).repairs_eq_zero
        (hsparing.stage.triangular.lowerUnitriangular_transpose hlength).leadingRegular
    have hfirst : lower.performed.length ≤ m.size * (m.size - 1) / 2 + repairs lower.performed :=
      length_performed_le rfl hwidth hlower
    have hsecond := length_performed_le htranspose hwidth hupper
    have hhalf : m.size * (m.size - 1) / 2 + m.size * (m.size - 1) / 2 ≤
        m.size * (m.size - 1) := by omega
    have hle := hsparing.repairs_le
    simp only [List.length_append, List.length_map, List.length_reverse]
    refine ⟨by omega, fun hregular => ?_⟩
    have hzero := hsparing.repairs_eq_zero hregular
    omega

/-- **Gate count.** For an invertible matrix of size `n` and any partition size
from one on, at most `n ^ 2 - 1` gates make its rows. With the rows in
elimination order no diagonal needs repair, and `n * (n - 1)` gates are enough. -/
theorem forMatrix_length_le (m : BinaryMatrix) (hm : m.WellFormed) (hinv : m.isInvertible = true)
    (k : Nat) (hk : 1 ≤ k) :
    (∃ gates, forMatrix m k = .ok gates ∧ run (Bits.units m.size) gates = m.rows ∧
      gates.length ≤ m.size ^ 2 - 1) ∧
    ∃ order ordered gates, eliminationOrder m = .ok order ∧ m.gatherRows order = .ok ordered ∧
      forMatrix ordered k = .ok gates ∧ run (Bits.units m.size) gates = ordered.rows ∧
      gates.length ≤ m.size * (m.size - 1) := by
  have hunit : IsUnit (rowMatrix m.size m.rows) := isInvertible_iff_isUnit.mp hinv
  constructor
  · obtain ⟨gates, hgates, hmakes, hle, -⟩ := exists_forMatrix_length_le rfl hm hunit hk
    refine ⟨gates, hgates, hmakes.run_units, ?_⟩
    calc gates.length
      _ ≤ m.size * (m.size - 1) + 1 * (m.size - 1) := by rwa [Nat.one_mul]
      _ = (m.size + 1) * (m.size - 1) := (Nat.add_mul _ _ _).symm
      _ = m.size ^ 2 - 1 := (Nat.sq_sub_sq m.size 1).symm
  · obtain ⟨order, horder, hperm⟩ := exists_eliminationOrder hunit
    have hsquare := isSquare_gathered hm.isSquare hperm
    obtain ⟨gates, hgates, hmakes, -, hle⟩ := exists_forMatrix_length_le (m := ⟨order.map m.row⟩)
      hsquare.length_eq (wellFormed_of_isSquare hsquare hm.size_le) (isUnit_gathered hperm hunit) hk
    exact ⟨order, _, gates, horder, gatherRows_eq_ok hperm, hgates, hmakes.run_units,
      hle (leadingRegular_of_eliminationOrder horder)⟩

/-- Size five in blocks of two, with a zero on the diagonal and a ragged block. -/
theorem forMatrix_length_le_ragged :
    BinaryMatrix.WellFormed ⟨[6, 3, 13, 24, 9]⟩ ∧
    BinaryMatrix.isInvertible ⟨[6, 3, 13, 24, 9]⟩ = true ∧
    (∃ gates, forMatrix ⟨[6, 3, 13, 24, 9]⟩ 2 = .ok gates ∧
      run (Bits.units 5) gates = [6, 3, 13, 24, 9] ∧ gates.length ≤ 24) ∧
    ∃ order ordered gates, eliminationOrder ⟨[6, 3, 13, 24, 9]⟩ = .ok order ∧
      BinaryMatrix.gatherRows ⟨[6, 3, 13, 24, 9]⟩ order = .ok ordered ∧
      forMatrix ordered 2 = .ok gates ∧ run (Bits.units 5) gates = ordered.rows ∧
      gates.length ≤ 20 := by
  have hm : BinaryMatrix.WellFormed ⟨[6, 3, 13, 24, 9]⟩ := ⟨by decide, by decide⟩
  have hinv : BinaryMatrix.isInvertible ⟨[6, 3, 13, 24, 9]⟩ = true := by decide +kernel
  exact ⟨hm, hinv, forMatrix_length_le _ hm hinv 2 (by decide)⟩

-- The bound is reached: an exchange of two qubits takes three gates.
example : forMatrix ⟨[2, 1]⟩ 1 = .ok [⟨1, 0⟩, ⟨0, 1⟩, ⟨1, 0⟩] := by decide +kernel

end Cnot

end CircuitSynthesis
