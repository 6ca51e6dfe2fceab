import CircuitSynthesis.Proofs.BinaryMatrix.Elimination

/-!
# Full rank, inverses and invertibility

Both eliminations keep the rows eliminated up to the current column. Forward
elimination finds as many pivots as there are columns exactly when the matrix
is invertible over the field with two elements (`isInvertible_iff_isUnit`).
Gauss-Jordan elimination never gets stuck on such a matrix, and what it
records is the inverse (`exists_inverse_of_isUnit`).
-/

namespace CircuitSynthesis

open BinaryMatrix

/-- The rows came from `original` by row operations that finished the first
`k` columns. -/
structure Eliminated (n k : Nat) (original rows : List Nat) : Prop where
  length_eq : rows.length = n
  triangular : TriangularTo n k rows
  annihilates : ∀ v, Annihilates n rows v ↔ Annihilates n original v

variable {n k : Nat} {original rows : List Nat}

theorem Eliminated.start (hlength : rows.length = n) : Eliminated n 0 rows rows :=
  ⟨hlength, triangularTo_zero n rows, fun _ => Iff.rfl⟩

theorem Eliminated.isUnit_iff (h : Eliminated n k original rows) (hlength : original.length = n) :
    IsUnit (rowMatrix n rows) ↔ IsUnit (rowMatrix n original) := by
  rw [isUnit_iff_annihilates h.length_eq, isUnit_iff_annihilates hlength]
  exact forall_congr' fun v => imp_congr_left (h.annihilates v)

/-- A pivot that was found is in range and has its one. -/
theorem pivot_of_firstFrom? {start pivot : Nat} (hlength : rows.length = n)
    (h : firstFrom? (·.testBit k) start rows = some pivot) :
    start ≤ pivot ∧ pivot < n ∧ (rows.getD pivot 0).testBit k = true := by
  obtain ⟨hle, x, hx, hbit⟩ := of_firstFrom?_eq_some h
  have hlt : pivot < rows.length := (List.getElem?_eq_some_iff.mp hx).1
  refine ⟨hle, by omega, ?_⟩
  rw [List.getD_eq_getElem?_getD, hx]
  exact hbit

theorem Eliminated.pivotRows {selected : Nat → Prop} [DecidablePred selected] {pivot : Nat}
    (h : Eliminated n k original rows) (hpivot : firstFrom? (·.testBit k) k rows = some pivot)
    (hbelow : ∀ i, k < i → selected i) (hself : ¬selected k) :
    Eliminated n (k + 1) original (pivotRows selected k pivot rows) := by
  obtain ⟨hle, hlt, hone⟩ := pivot_of_firstFrom? h.length_eq hpivot
  have hlength := h.length_eq
  refine ⟨by rw [length_pivotRows, hlength],
    h.triangular.pivotRows hlength hle hlt hone hbelow hself, fun v => ?_⟩
  rw [annihilates_pivotRows_iff (by omega) hself]
  exact h.annihilates v

/-- On an invertible matrix every column has a pivot. -/
theorem Eliminated.firstFrom?_ne_none (h : Eliminated n k original rows)
    (hlength : original.length = n) (hk : k < n) (hunit : IsUnit (rowMatrix n original)) :
    firstFrom? (·.testBit k) k rows ≠ none := by
  obtain ⟨i, hki, hi, hbit⟩ :=
    h.triangular.exists_pivot hk ((h.isUnit_iff hlength).mpr hunit)
  intro hnone
  have hi' : i < rows.length := by rw [h.length_eq]; exact hi
  have hzero := of_firstFrom?_eq_none hnone hki (List.getElem?_eq_getElem hi')
  rw [List.getD_eq_getElem _ _ hi'] at hbit
  exact absurd hbit (by simpa using hzero)

/-! ## Rank -/

theorem forwardStep_of_pivot {pivot : Nat}
    (h : firstFrom? (·.testBit k) k rows = some pivot) :
    forwardStep (k, rows) k = (k + 1, pivotRows (k < ·) k pivot rows) := by
  rw [forwardStep, h]
  rfl

theorem forwardStep_of_no_pivot {found : Nat}
    (h : firstFrom? (·.testBit k) found rows = none) :
    forwardStep (found, rows) k = (found, rows) := by
  rw [forwardStep, h]

theorem forwardStep_le (s : Nat × List Nat) (col : Nat) : (forwardStep s col).1 ≤ s.1 + 1 := by
  obtain ⟨found, rows⟩ := s
  rw [forwardStep]
  split
  · exact Nat.le_succ found
  · exact Nat.le_refl (found + 1)

/-- After `k` columns at most `k` pivots were found, and if all of them were,
the rows are eliminated up to `k`. -/
theorem forward_run (hlength : rows.length = n) (k : Nat) :
    ((List.range k).foldl forwardStep (0, rows)).1 ≤ k ∧
      (((List.range k).foldl forwardStep (0, rows)).1 = k →
        Eliminated n k rows ((List.range k).foldl forwardStep (0, rows)).2) := by
  induction k with
  | zero => exact ⟨Nat.le_refl 0, fun _ => .start hlength⟩
  | succ k ih =>
    rw [List.range_succ, List.foldl_append]
    generalize (List.range k).foldl forwardStep (0, rows) = s at ih ⊢
    obtain ⟨hle, helim⟩ := ih
    have hstep := forwardStep_le s k
    refine ⟨by simp only [List.foldl_cons, List.foldl_nil]; omega, fun hfull => ?_⟩
    simp only [List.foldl_cons, List.foldl_nil] at hfull ⊢
    obtain ⟨found, current⟩ := s
    -- If all pivots were found, so were those of the columns before.
    obtain rfl : found = k := by
      change found ≤ k at hle
      change _ ≤ found + 1 at hstep
      omega
    cases hpivot : firstFrom? (·.testBit found) found current with
    | none =>
      rw [forwardStep_of_no_pivot hpivot] at hfull
      change found = found + 1 at hfull
      omega
    | some pivot =>
      rw [forwardStep_of_pivot hpivot]
      exact (helim rfl).pivotRows hpivot (fun _ hi => hi) (Nat.lt_irrefl found)

/-- On an invertible matrix every column gives a pivot. -/
theorem forward_run_of_isUnit (hlength : rows.length = n) (hunit : IsUnit (rowMatrix n rows))
    {k : Nat} (hk : k ≤ n) : ((List.range k).foldl forwardStep (0, rows)).1 = k := by
  induction k with
  | zero => rfl
  | succ k ih =>
    have helim := (forward_run hlength k).2 (ih (by omega))
    have hne := helim.firstFrom?_ne_none hlength (by omega) hunit
    have hfound := ih (by omega)
    rw [List.range_succ, List.foldl_append]
    generalize (List.range k).foldl forwardStep (0, rows) = s at hfound hne ⊢
    obtain ⟨found, current⟩ := s
    obtain rfl : found = k := hfound
    obtain ⟨pivot, hpivot⟩ := Option.ne_none_iff_exists'.mp hne
    simp only [List.foldl_cons, List.foldl_nil]
    rw [forwardStep_of_pivot hpivot]

/-- Full rank is invertibility over the field with two elements. -/
theorem isInvertible_iff_isUnit {m : BinaryMatrix} :
    m.isInvertible = true ↔ IsUnit (rowMatrix m.size m.rows) := by
  unfold isInvertible rank
  rw [beq_iff_eq]
  constructor
  · intro h
    have helim := (forward_run rfl m.size).2 h
    exact (helim.isUnit_iff rfl).mp helim.triangular.isUnit
  · intro h
    exact forward_run_of_isUnit rfl h (Nat.le_refl _)

/-! ## Elimination on pairs -/

theorem firstFrom?_map {α β : Type} (f : α → β) (p : β → Bool) (start : Nat) (l : List α) :
    firstFrom? p start (l.map f) = firstFrom? (fun x => p (f x)) start l := by
  unfold firstFrom?
  rw [← List.map_drop, List.findIdx?_map]
  rfl

/-- On pairs, adding the pivot to the selected ones is the common move on the
first entries, whatever happens to the second. -/
theorem map_fst_mapIdx_pivot {selected : Nat → Prop} [DecidablePred selected]
    {pairs : List (Nat × Nat)} {pivot : Nat} (hk : k < pairs.length) (hpivot : pivot < pairs.length)
    {move : Nat × Nat → Nat × Nat}
    (hmove : ∀ p, (move p).1 = p.1 ^^^ ((swapEntries pairs k pivot).getD k (0, 0)).1) :
    ((swapEntries pairs k pivot).mapIdx fun r p =>
      if selected r ∧ p.1.testBit k then move p else p).map Prod.fst =
      pivotRows selected k pivot (pairs.map Prod.fst) := by
  have hswap : (swapEntries pairs k pivot).map Prod.fst =
      swapEntries (pairs.map Prod.fst) k pivot := map_swapEntries Prod.fst hk hpivot
  have hhead : (swapEntries (pairs.map Prod.fst) k pivot).getD k 0 =
      ((swapEntries pairs k pivot).getD k (0, 0)).1 := by
    rw [← hswap, List.getD_eq_getElem?_getD, List.getD_eq_getElem?_getD, List.getElem?_map]
    cases (swapEntries pairs k pivot)[k]? <;> rfl
  unfold pivotRows
  rw [hhead, ← hswap]
  apply List.ext_getElem
  · simp
  · intro i hi _
    simp only [List.getElem_map, List.getElem_mapIdx]
    split
    · exact hmove _
    · rfl

theorem lt_length_of_firstFrom? {pairs : List (Nat × Nat)} {pivot : Nat}
    (h : firstFrom? (·.testBit k) k (pairs.map Prod.fst) = some pivot) :
    pivot < pairs.length := by
  obtain ⟨-, x, hx, -⟩ := of_firstFrom?_eq_some h
  simpa using (List.getElem?_eq_some_iff.mp hx).1

/-- Elimination of an invertible matrix never gets stuck, when each step makes
the common move on the first entries. What a step keeps of the pairs besides
holds in the end. -/
theorem elimination_run (step : List (Nat × Nat) → Nat → Option (List (Nat × Nat)))
    (selected : Nat → Nat → Prop) [∀ k, DecidablePred (selected k)]
    (Keeps : Nat → List (Nat × Nat) → Prop) {start : List (Nat × Nat)}
    (hlength : original.length = n) (hunit : IsUnit (rowMatrix n original))
    (hfst : start.map Prod.fst = original) (hstart : Keeps 0 start)
    (hbelow : ∀ k i, k < i → selected k i) (hself : ∀ k, ¬selected k k)
    (hstep : ∀ {k pivot pairs}, Eliminated n k original (pairs.map Prod.fst) → k < pairs.length →
      firstFrom? (·.testBit k) k (pairs.map Prod.fst) = some pivot → Keeps k pairs →
      ∃ pairs', step pairs k = some pairs' ∧
        pairs'.map Prod.fst = pivotRows (selected k) k pivot (pairs.map Prod.fst) ∧
        Keeps (k + 1) pairs')
    {k : Nat} (hk : k ≤ n) :
    ∃ pairs, (List.range k).foldlM step start = some pairs ∧
      Eliminated n k original (pairs.map Prod.fst) ∧ Keeps k pairs := by
  induction k with
  | zero =>
    refine ⟨start, rfl, ?_, hstart⟩
    rw [hfst]
    exact .start hlength
  | succ k ih =>
    obtain ⟨pairs, hrun, helim, hkeeps⟩ := ih (by omega)
    have hlength' : pairs.length = n := by simpa using helim.length_eq
    obtain ⟨pivot, hpivot⟩ := Option.ne_none_iff_exists'.mp
      (helim.firstFrom?_ne_none hlength (by omega) hunit)
    obtain ⟨pairs', hpairs', hfst', hkeeps'⟩ := hstep helim (by omega) hpivot hkeeps
    refine ⟨pairs', ?_, ?_, hkeeps'⟩
    · rw [List.range_succ, List.foldlM_append, hrun]
      simp [hpairs']
    · rw [hfst']
      exact helim.pivotRows hpivot (hbelow k) (hself k)

/-! ## The inverse -/

/-- The second entry of each pair says which rows of `original` add up to the
first. -/
structure Recorded (n : Nat) (original : List Nat) (pairs : List (Nat × Nat)) : Prop where
  fst_lt : ∀ p ∈ pairs, p.1 < 2 ^ n
  snd_lt : ∀ p ∈ pairs, p.2 < 2 ^ n
  vector_eq : ∀ p ∈ pairs,
    Bits.vector n p.1 = Matrix.vecMul (Bits.vector n p.2) (rowMatrix n original)

theorem Recorded.start (h : IsSquare n rows) : Recorded n rows (rows.zip (Bits.units n)) := by
  refine ⟨?_, ?_, ?_⟩
  · intro p hp
    exact h.row_lt p.1 (List.of_mem_zip hp).1
  · intro p hp
    exact (isSquare_units n).row_lt p.2 (List.of_mem_zip hp).2
  · intro p hp
    obtain ⟨i, hi, rfl⟩ := List.getElem_of_mem hp
    have hi' : i < n := by simpa [h.length_eq] using hi
    have hone := congrFun (rowMatrix_units n) ⟨i, hi'⟩
    have hrow : Bits.vector n (2 ^ i) = (1 : Matrix (Fin n) (Fin n) (ZMod 2)) ⟨i, hi'⟩ := by
      rw [← hone, rowMatrix, getD_units hi']
    simp only [List.getElem_zip, Bits.getElem_units]
    rw [hrow, ← Matrix.mul_apply_eq_vecMul, Matrix.one_mul]
    have : i < rows.length := by rw [h.length_eq]; exact hi'
    simp [rowMatrix, this]

/-- Adding pairs entry by entry keeps the record. -/
theorem Recorded.of_sums {pairs pairs' : List (Nat × Nat)} (h : Recorded n original pairs)
    (hsums : ∀ p ∈ pairs', p ∈ pairs ∨ ∃ q ∈ pairs, ∃ a ∈ pairs, p = (q.1 ^^^ a.1, q.2 ^^^ a.2)) :
    Recorded n original pairs' := by
  refine ⟨?_, ?_, ?_⟩
  · intro p hp
    rcases hsums p hp with hp | ⟨q, hq, a, ha, rfl⟩
    · exact h.fst_lt p hp
    · exact Nat.xor_lt_two_pow (h.fst_lt q hq) (h.fst_lt a ha)
  · intro p hp
    rcases hsums p hp with hp | ⟨q, hq, a, ha, rfl⟩
    · exact h.snd_lt p hp
    · exact Nat.xor_lt_two_pow (h.snd_lt q hq) (h.snd_lt a ha)
  · intro p hp
    rcases hsums p hp with hp | ⟨q, hq, a, ha, rfl⟩
    · exact h.vector_eq p hp
    · rw [Bits.vector_xor, Bits.vector_xor, Matrix.add_vecMul, h.vector_eq q hq, h.vector_eq a ha]

/-- A step with a pivot makes the common move on the first entries, and only
adds pairs. -/
theorem jordanStep_of_pivot {pairs : List (Nat × Nat)} {pivot : Nat} (hk : k < pairs.length)
    (h : firstFrom? (·.testBit k) k (pairs.map Prod.fst) = some pivot) :
    ∃ pairs', jordanStep pairs k = some pairs' ∧
      pairs'.map Prod.fst = pivotRows (· ≠ k) k pivot (pairs.map Prod.fst) ∧
      ∀ p ∈ pairs', p ∈ pairs ∨
        ∃ q ∈ pairs, ∃ a ∈ pairs, p = (q.1 ^^^ a.1, q.2 ^^^ a.2) := by
  have hpivot : pivot < pairs.length := lt_length_of_firstFrom? h
  have hk' : k < (swapEntries pairs k pivot).length := by simpa using hk
  rw [firstFrom?_map] at h
  refine ⟨_, by rw [jordanStep, h]; rfl, map_fst_mapIdx_pivot hk hpivot fun _ => rfl, ?_⟩
  intro p hp
  obtain ⟨i, hi, rfl⟩ := List.mem_mapIdx.mp hp
  have hmem : ∀ j (hj : j < (swapEntries pairs k pivot).length),
      (swapEntries pairs k pivot)[j] ∈ pairs := fun j hj =>
    (perm_swapEntries pairs k pivot).mem_iff.mp (List.getElem_mem hj)
  have hhead : (swapEntries pairs k pivot).getD k (0, 0) ∈ pairs := by
    rw [List.getD_eq_getElem _ _ hk']
    exact hmem k hk'
  split
  · exact .inr ⟨_, hmem i hi, _, hhead, rfl⟩
  · exact .inl (hmem i hi)

/-- What Gauss-Jordan elimination of an invertible matrix ends with. -/
theorem jordan_run (hsquare : IsSquare n rows) (hunit : IsUnit (rowMatrix n rows)) :
    ∃ pairs, (List.range n).foldlM jordanStep (rows.zip (Bits.units n)) = some pairs ∧
      pairs.length = n ∧ ReducedTo n n (pairs.map Prod.fst) ∧ Recorded n rows pairs := by
  have hfst : (rows.zip (Bits.units n)).map Prod.fst = rows := by
    rw [List.map_fst_zip]
    rw [hsquare.length_eq, Bits.length_units]
  have hstart : ReducedTo n 0 ((rows.zip (Bits.units n)).map Prod.fst) ∧
      Recorded n rows (rows.zip (Bits.units n)) :=
    ⟨fun j hj => absurd hj (Nat.not_lt_zero j), .start hsquare⟩
  obtain ⟨pairs, hrun, helim, hreduced, hrecorded⟩ :=
    elimination_run jordanStep (fun k i => i ≠ k)
      (fun k pairs => ReducedTo n k (pairs.map Prod.fst) ∧ Recorded n rows pairs)
      hsquare.length_eq hunit hfst hstart (fun k i hi => by omega) (fun k => by simp)
      (fun helim hk hpivot ⟨hreduced, hrecorded⟩ => by
        obtain ⟨pairs', hstep, hfst', hsums⟩ := jordanStep_of_pivot hk hpivot
        obtain ⟨hle, hlt, hone⟩ := pivot_of_firstFrom? helim.length_eq hpivot
        refine ⟨pairs', hstep, hfst', ?_, hrecorded.of_sums hsums⟩
        rw [hfst']
        exact hreduced.pivotRows helim.length_eq hle hlt hone)
      (Nat.le_refl n)
  exact ⟨pairs, hrun, by simpa using helim.length_eq, hreduced, hrecorded⟩

/-- An invertible matrix has an inverse, and elimination finds it. -/
theorem exists_inverse_of_isUnit {m : BinaryMatrix} (hm : m.WellFormed)
    (hunit : IsUnit (rowMatrix m.size m.rows)) :
    ∃ i, m.inverse = .ok i ∧ IsSquare m.size i.rows ∧
      rowMatrix m.size i.rows * rowMatrix m.size m.rows = 1 := by
  obtain ⟨pairs, hrun, hlength, hreduced, hrecorded⟩ := jordan_run hm.isSquare hunit
  refine ⟨⟨pairs.map Prod.snd⟩, ?_, ⟨by simpa using hlength, ?_⟩, ?_⟩
  · unfold inverse inverseRows?
    simp only [hrun]
    rfl
  · intro row hrow
    obtain ⟨p, hp, rfl⟩ := List.mem_map.mp hrow
    exact hrecorded.snd_lt p hp
  · -- The rows have become units, and row `i` of the record says how unit `i` came about.
    ext i j
    have hi : (i : Nat) < pairs.length := by rw [hlength]; exact i.isLt
    have hp := hrecorded.vector_eq _ (List.getElem_mem hi)
    have hsnd : rowMatrix m.size (pairs.map Prod.snd) i =
        Bits.vector m.size pairs[(i : Nat)].2 := by
      simp [rowMatrix, hi]
    rw [Matrix.mul_apply_eq_vecMul, hsnd, ← hp, Bits.vector_apply, Matrix.one_apply]
    have hbit := hreduced j j.isLt i i.isLt
    have hget : (pairs.map Prod.fst).getD i 0 = pairs[(i : Nat)].1 := by simp [hi]
    rw [hget] at hbit
    simp [hbit, Fin.ext_iff]

end CircuitSynthesis
