import CircuitSynthesis.BinaryMatrix.Elimination
import CircuitSynthesis.Proofs.BinaryMatrix.Triangular

/-!
# Elimination decides invertibility

Forward elimination and the computation of the inverse share one move: a row
with a one in the current column goes to the diagonal and is added to some of
the other rows. The move (`pivotRows`) extends the triangular part by a column
and keeps the vectors that all rows annihilate, so it also keeps whether the
matrix is invertible. Hence full rank is the same as invertibility over the
field with two elements, and the inverse is found whenever there is one.
-/

namespace CircuitSynthesis

open BinaryMatrix

/-! ## Exchanging entries and looking for a pivot -/

section Entries

variable {α β : Type} {l : List α} {a b : Nat}

theorem swapEntries_of_lt (ha : a < l.length) (hb : b < l.length) :
    swapEntries l a b = (l.set a l[b]).set b l[a] := by
  unfold swapEntries
  rw [List.getElem?_eq_getElem ha, List.getElem?_eq_getElem hb]

theorem perm_swapEntries (l : List α) (a b : Nat) : (swapEntries l a b).Perm l := by
  by_cases ha : a < l.length
  · by_cases hb : b < l.length
    · rw [swapEntries_of_lt ha hb]
      exact List.set_set_perm ha hb
    · unfold swapEntries
      rw [List.getElem?_eq_none (Nat.le_of_not_lt hb)]
      cases l[a]? <;> exact .refl _
  · unfold swapEntries
    rw [List.getElem?_eq_none (Nat.le_of_not_lt ha)]

@[simp] theorem length_swapEntries (l : List α) (a b : Nat) :
    (swapEntries l a b).length = l.length := (perm_swapEntries l a b).length_eq

theorem IsSquare.swapEntries {n : Nat} {rows : List Nat} (h : IsSquare n rows) (a b : Nat) :
    IsSquare n (swapEntries rows a b) := by
  have hperm := perm_swapEntries rows a b
  exact ⟨hperm.length_eq.trans h.length_eq, fun row hrow => h.row_lt row (hperm.mem_iff.mp hrow)⟩

theorem map_swapEntries (f : α → β) (ha : a < l.length) (hb : b < l.length) :
    (swapEntries l a b).map f = swapEntries (l.map f) a b := by
  rw [swapEntries_of_lt ha hb, swapEntries_of_lt (by simpa using ha) (by simpa using hb)]
  simp

theorem getElem?_swapEntries (ha : a < l.length) (hb : b < l.length) (i : Nat) :
    (swapEntries l a b)[i]? = if i = b then l[a]? else if i = a then l[b]? else l[i]? := by
  rw [swapEntries_of_lt ha hb, List.getElem?_set, List.getElem?_set]
  by_cases hib : b = i
  · subst hib
    simp [ha, hb]
  · by_cases hia : a = i
    · subst hia
      simp [hib, Ne.symm hib, ha, hb]
    · simp [hib, hia, Ne.symm hib, Ne.symm hia]

theorem getD_swapEntries (ha : a < l.length) (hb : b < l.length) (i : Nat) (d : α) :
    (swapEntries l a b).getD i d = l.getD (if i = b then a else if i = a then b else i) d := by
  rw [List.getD_eq_getElem?_getD, List.getD_eq_getElem?_getD, getElem?_swapEntries ha hb]
  split
  · rfl
  · split <;> rfl

/-- Exchanging two entries from `k` on takes positions from `k` on to such
positions, and leaves the others. -/
theorem exists_getElem?_swapEntries {k : Nat} (hka : k ≤ a) (hkb : k ≤ b) (ha : a < l.length)
    (hb : b < l.length) (i : Nat) :
    ∃ i', (swapEntries l a b)[i]? = l[i']? ∧ (i < k → i' = i) ∧ (k ≤ i → k ≤ i') ∧
      (i < l.length → i' < l.length) := by
  rw [getElem?_swapEntries ha hb]
  by_cases hib : i = b
  · exact ⟨a, by rw [if_pos hib], by omega, by omega, fun _ => ha⟩
  · by_cases hia : i = a
    · exact ⟨b, by rw [if_neg hib, if_pos hia], by omega, by omega, fun _ => hb⟩
    · exact ⟨i, by rw [if_neg hib, if_neg hia], by omega, by omega, id⟩

theorem of_firstFrom?_eq_some {p : α → Bool} {start i : Nat} (h : firstFrom? p start l = some i) :
    start ≤ i ∧ ∃ x, l[i]? = some x ∧ p x = true := by
  obtain ⟨d, hd, rfl⟩ := Option.map_eq_some_iff.mp h
  obtain ⟨hlt, hp, -⟩ := List.findIdx?_eq_some_iff_getElem.mp hd
  refine ⟨Nat.le_add_right start d, (l.drop start)[d], ?_, hp⟩
  rw [← List.getElem?_drop]
  exact List.getElem?_eq_getElem hlt

theorem of_firstFrom?_eq_none {p : α → Bool} {start : Nat} (h : firstFrom? p start l = none)
    {i : Nat} (hi : start ≤ i) {x : α} (hx : l[i]? = some x) : p x = false := by
  have hnone := List.findIdx?_eq_none_iff.mp (Option.map_eq_none_iff.mp h)
  apply hnone
  apply List.mem_of_getElem? (i := i - start)
  rw [List.getElem?_drop, Nat.add_sub_cancel' hi]
  exact hx

end Entries

/-! ## The common move -/

/-- Row `pivot` moves to position `k` and is added to the selected rows that
have a one in column `k`. -/
def pivotRows (selected : Nat → Prop) [DecidablePred selected] (k pivot : Nat) (rows : List Nat) :
    List Nat :=
  (swapEntries rows k pivot).mapIdx fun r x =>
    if selected r ∧ x.testBit k then x ^^^ (swapEntries rows k pivot).getD k 0 else x

/-- Row `found` is added to the later rows with a one in column `col`. -/
def addBelow (found col : Nat) (rows : List Nat) : List Nat :=
  rows.mapIdx fun r x => if found < r ∧ x.testBit col then x ^^^ rows.getD found 0 else x

@[simp] theorem length_addBelow (found col : Nat) (rows : List Nat) :
    (addBelow found col rows).length = rows.length := List.length_mapIdx

theorem getD_addBelow (found col : Nat) (rows : List Nat) (r : Nat) :
    (addBelow found col rows).getD r 0 =
      if found < r ∧ (rows.getD r 0).testBit col then rows.getD r 0 ^^^ rows.getD found 0
      else rows.getD r 0 := by
  by_cases hr : r < rows.length
  · simp [addBelow, hr]
  · have hlength : ¬r < (addBelow found col rows).length := by simpa using hr
    rw [List.getD_eq_default _ _ (by omega), List.getD_eq_default _ _ (by omega)]
    simp

theorem pivotRows_eq_addBelow (k pivot : Nat) (rows : List Nat) :
    pivotRows (k < ·) k pivot rows = addBelow k k (swapEntries rows k pivot) := rfl

section PivotRows

variable {selected : Nat → Prop} [DecidablePred selected] {n k pivot : Nat} {rows : List Nat}

@[simp] theorem length_pivotRows : (pivotRows selected k pivot rows).length = rows.length := by
  simp [pivotRows]

theorem getD_pivotRows {i : Nat} (hi : i < rows.length) :
    (pivotRows selected k pivot rows).getD i 0 =
      if selected i ∧ ((swapEntries rows k pivot).getD i 0).testBit k then
        (swapEntries rows k pivot).getD i 0 ^^^ (swapEntries rows k pivot).getD k 0
      else (swapEntries rows k pivot).getD i 0 := by
  simp [pivotRows, hi]

variable (selected) in
/-- In the columns before `k` the pivot has only zeros, so there the move only
exchanges rows, and only rows from `k` on. -/
theorem exists_testBit_pivotRows (h : TriangularTo n k rows) (hlength : rows.length = n)
    (hk : k ≤ pivot) (hpivot : pivot < n) {i : Nat} (hi : i < n) :
    ∃ i' < n, (i < k → i' = i) ∧ (k ≤ i → k ≤ i') ∧
      ∀ j < k, ((pivotRows selected k pivot rows).getD i 0).testBit j =
        (rows.getD i' 0).testBit j := by
  have hget : ∀ i < n, ∃ i' < n, (i < k → i' = i) ∧ (k ≤ i → k ≤ i') ∧
      (swapEntries rows k pivot).getD i 0 = rows.getD i' 0 := by
    intro i hi
    obtain ⟨i', he, hlow, hhigh, hlt⟩ := exists_getElem?_swapEntries (Nat.le_refl k) hk
      (show k < rows.length by omega) (show pivot < rows.length by omega) i
    refine ⟨i', by rw [← hlength]; exact hlt (by omega), hlow, hhigh, ?_⟩
    rw [List.getD_eq_getElem?_getD, he, ← List.getD_eq_getElem?_getD]
  obtain ⟨i', hi', hlow, hhigh, he⟩ := hget i hi
  obtain ⟨p, hp, -, hkp, hep⟩ := hget k (by omega)
  refine ⟨i', hi', hlow, hhigh, fun j hj => ?_⟩
  rw [getD_pivotRows (by omega), he, hep]
  split
  · have hzero := h.below hj (Nat.lt_of_lt_of_le hj (hkp (Nat.le_refl k))) hp
    rw [Nat.testBit_xor, hzero, Bool.xor_false]
  · rfl

theorem testBit_swapEntries_pivot (hk : k < rows.length) (hpivot : pivot < rows.length)
    (hone : (rows.getD pivot 0).testBit k = true) :
    ((swapEntries rows k pivot).getD k 0).testBit k = true := by
  rw [List.getD_eq_getElem?_getD, getElem?_swapEntries hk hpivot]
  by_cases hkp : k = pivot
  · subst hkp
    simpa using hone
  · rw [if_neg hkp, if_pos rfl]
    simpa using hone

/-- The pivot stands on the diagonal. -/
theorem testBit_pivotRows_diagonal (hk : k < rows.length) (hpivot : pivot < rows.length)
    (hone : (rows.getD pivot 0).testBit k = true) (hself : ¬selected k) :
    ((pivotRows selected k pivot rows).getD k 0).testBit k = true := by
  rw [getD_pivotRows hk, if_neg (fun hsel => hself hsel.1)]
  exact testBit_swapEntries_pivot hk hpivot hone

/-- In the selected rows column `k` is cleared. -/
theorem testBit_pivotRows_selected (hk : k < rows.length) (hpivot : pivot < rows.length)
    (hone : (rows.getD pivot 0).testBit k = true) {i : Nat} (hi : i < rows.length)
    (hsel : selected i) : ((pivotRows selected k pivot rows).getD i 0).testBit k = false := by
  rw [getD_pivotRows hi]
  by_cases hbit : ((swapEntries rows k pivot).getD i 0).testBit k = true
  · rw [if_pos ⟨hsel, hbit⟩, Nat.testBit_xor, hbit, testBit_swapEntries_pivot hk hpivot hone,
      Bool.xor_self]
  · rw [if_neg (fun h => hbit h.2)]
    simpa using hbit

/-- The move extends the triangular part by one column, provided that it adds
the pivot to all rows below the diagonal and not to itself. -/
theorem TriangularTo.pivotRows (h : TriangularTo n k rows) (hlength : rows.length = n)
    (hk : k ≤ pivot) (hpivot : pivot < n) (hone : (rows.getD pivot 0).testBit k = true)
    (hbelow : ∀ i, k < i → selected i) (hself : ¬selected k) :
    TriangularTo n (k + 1) (pivotRows selected k pivot rows) := by
  subst hlength
  intro j hj
  rcases Nat.lt_succ_iff_lt_or_eq.mp hj with hlt | rfl
  · refine ⟨?_, fun i hij hi => ?_⟩
    · obtain ⟨i', -, hlow, -, hbit⟩ :=
        exists_testBit_pivotRows selected h rfl hk hpivot (show j < _ by omega)
      rw [hbit j hlt, hlow hlt]
      exact h.diagonal hlt
    · obtain ⟨i', hi', hlow, hhigh, hbit⟩ :=
        exists_testBit_pivotRows selected h rfl hk hpivot hi
      rw [hbit j hlt]
      exact h.below hlt (by omega) hi'
  · exact ⟨testBit_pivotRows_diagonal (by omega) hpivot hone hself,
      fun i hij hi => testBit_pivotRows_selected (by omega) hpivot hone hi (hbelow i hij)⟩

/-- The first `k` columns are those of the identity. -/
def ReducedTo (n k : Nat) (rows : List Nat) : Prop :=
  ∀ j < k, ∀ i < n, (rows.getD i 0).testBit j = decide (i = j)

theorem ReducedTo.triangularTo (h : ReducedTo n k rows) (hk : k ≤ n) : TriangularTo n k rows := by
  intro j hj
  refine ⟨?_, fun i hij hi => ?_⟩
  · rw [h j hj j (by omega), decide_eq_true rfl]
  · rw [h j hj i hi]
    exact decide_eq_false (by omega)

/-- If the pivot is added to all other rows, one more column becomes that of
the identity. -/
theorem ReducedTo.pivotRows (h : ReducedTo n k rows) (hlength : rows.length = n)
    (hk : k ≤ pivot) (hpivot : pivot < n) (hone : (rows.getD pivot 0).testBit k = true) :
    ReducedTo n (k + 1) (pivotRows (· ≠ k) k pivot rows) := by
  subst hlength
  intro j hj i hi
  rcases Nat.lt_succ_iff_lt_or_eq.mp hj with hlt | rfl
  · obtain ⟨i', hi', hlow, hhigh, hbit⟩ := exists_testBit_pivotRows (· ≠ k)
      (h.triangularTo (by omega)) rfl hk hpivot hi
    rw [hbit j hlt, h j hlt i' hi', decide_eq_decide]
    omega
  · by_cases hij : i = j
    · subst hij
      rw [testBit_pivotRows_diagonal hi hpivot hone (by simp), decide_eq_true rfl]
    · rw [testBit_pivotRows_selected (by omega) hpivot hone hi hij, decide_eq_false hij]

/-- Every row is orthogonal to the vector. -/
def Annihilates (n : Nat) (rows : List Nat) (v : Fin n → ZMod 2) : Prop :=
  ∀ row ∈ rows, dotProduct (Bits.vector n row) v = 0

/-- The move keeps the vectors that all rows annihilate. -/
theorem annihilates_pivotRows_iff (hk : k < rows.length) (hself : ¬selected k)
    (v : Fin n → ZMod 2) :
    Annihilates n (pivotRows selected k pivot rows) v ↔ Annihilates n rows v := by
  have hperm : Annihilates n rows v ↔ Annihilates n (swapEntries rows k pivot) v := by
    simp only [Annihilates, (perm_swapEntries rows k pivot).mem_iff]
  rw [hperm]
  have hk' : k < (swapEntries rows k pivot).length := by simpa using hk
  have hpivot : (swapEntries rows k pivot).getD k 0 ∈ swapEntries rows k pivot := by
    rw [List.getD_eq_getElem _ _ hk']
    exact List.getElem_mem hk'
  constructor
  · intro h
    have hfixed : dotProduct (Bits.vector n ((swapEntries rows k pivot).getD k 0)) v = 0 := by
      have hrow : (pivotRows selected k pivot rows).getD k 0 =
          (swapEntries rows k pivot).getD k 0 := by
        rw [getD_pivotRows hk, if_neg (fun hsel => hself hsel.1)]
      rw [← hrow, List.getD_eq_getElem _ _ (by simpa using hk)]
      exact h _ (List.getElem_mem _)
    intro row hrow
    obtain ⟨i, hi, rfl⟩ := List.getElem_of_mem hrow
    have hmem := h _ (List.mem_mapIdx.mpr ⟨i, hi, rfl⟩)
    split at hmem
    · rwa [Bits.vector_xor, add_dotProduct, hfixed, add_zero] at hmem
    · exact hmem
  · intro h row hrow
    obtain ⟨i, hi, rfl⟩ := List.mem_mapIdx.mp hrow
    split
    · rw [Bits.vector_xor, add_dotProduct, h _ (List.getElem_mem hi), h _ hpivot, add_zero]
    · exact h _ (List.getElem_mem hi)

end PivotRows

/-- A matrix is invertible exactly when its rows annihilate nothing but zero. -/
theorem isUnit_iff_annihilates {n : Nat} {rows : List Nat} (hlength : rows.length = n) :
    IsUnit (rowMatrix n rows) ↔ ∀ v, Annihilates n rows v → v = 0 := by
  have hkernel : ∀ v, Matrix.mulVec (rowMatrix n rows) v = 0 ↔ Annihilates n rows v := by
    intro v
    constructor
    · intro h row hrow
      obtain ⟨i, hi, rfl⟩ := List.getElem_of_mem hrow
      have := congrFun h ⟨i, by omega⟩
      simpa [Matrix.mulVec, rowMatrix, hi] using this
    · intro h
      funext i
      have hi : (i : Nat) < rows.length := by omega
      have := h _ (List.getElem_mem hi)
      simpa [Matrix.mulVec, rowMatrix, hi] using this
  rw [← Matrix.mulVec_injective_iff_isUnit]
  constructor
  · intro h v hv
    apply h
    rw [(hkernel v).mpr hv, Matrix.mulVec_zero]
  · intro h u v huv
    have hzero : Matrix.mulVec (rowMatrix n rows) (u - v) = 0 := by
      rw [Matrix.mulVec_sub]
      exact sub_eq_zero.mpr huv
    exact sub_eq_zero.mp (h _ ((hkernel _).mp hzero))

end CircuitSynthesis
