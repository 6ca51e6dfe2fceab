import CircuitSynthesis.Proofs.BinaryMatrix.Elimination

/-!
# Rows in another order

An order is accepted exactly when it is a permutation of the rows. Gathering
the rows of a matrix in such an order multiplies by a permutation matrix from
the left, so it keeps invertibility, and scattering puts the rows back
(`scatterRows_gathered`), as gathering does with scattered rows. Scattered rows
are looked at once more, but those of a well formed matrix always pass
(`WellFormed.scatterRows_eq_ok`).
-/

namespace CircuitSynthesis

/-- A list of the right length that leaves no number out is a permutation. -/
theorem isRangePermutation_of_mem {n : Nat} {values : List Nat} (hlength : values.length = n)
    (hmem : ∀ v < n, v ∈ values) : IsRangePermutation n values := by
  have hsubperm : (List.range n).Subperm values :=
    List.nodup_range.subperm fun v hv => hmem v (List.mem_range.mp hv)
  have hperm : (List.range n).Perm values := hsubperm.perm_of_length_le (by simp [hlength])
  exact ⟨hlength, hperm.nodup_iff.mp List.nodup_range,
    fun v hv => List.mem_range.mp (hperm.mem_iff.mpr hv)⟩

theorem isRangePermutation_range (n : Nat) : IsRangePermutation n (List.range n) :=
  ⟨List.length_range, List.nodup_range, fun _ hv => List.mem_range.mp hv⟩

theorem IsRangePermutation.getD_lt {n : Nat} {values : List Nat} (h : IsRangePermutation n values)
    {i : Nat} (hi : i < n) : values.getD i 0 < n := by
  have hi' : i < values.length := by rw [h.length_eq]; exact hi
  rw [List.getD_eq_getElem _ _ hi']
  exact h.lt _ (List.getElem_mem hi')

/-! ## Writing entries to given places -/

section Write

variable {α : Type} {writes : List (Nat × α)} {l : List α} {i : Nat}

theorem length_foldl_set (writes : List (Nat × α)) (l : List α) :
    (writes.foldl (fun l w => l.set w.1 w.2) l).length = l.length := by
  induction writes generalizing l with
  | nil => rfl
  | cons w rest ih => rw [List.foldl_cons, ih, List.length_set]

theorem getElem?_foldl_set_of_notMem (h : i ∉ writes.map Prod.fst) :
    (writes.foldl (fun l w => l.set w.1 w.2) l)[i]? = l[i]? := by
  induction writes generalizing l with
  | nil => rfl
  | cons w rest ih =>
    rw [List.map_cons, List.mem_cons, not_or] at h
    rw [List.foldl_cons, ih h.2, List.getElem?_set_ne (Ne.symm h.1)]

/-- Entries written to different places stay as they were written. -/
theorem getElem?_foldl_set_of_mem (hnodup : (writes.map Prod.fst).Nodup) (hi : i < l.length)
    {v : α} (h : (i, v) ∈ writes) :
    (writes.foldl (fun l w => l.set w.1 w.2) l)[i]? = some v := by
  induction writes generalizing l with
  | nil => cases h
  | cons w rest ih =>
    obtain ⟨hfresh, hrest⟩ := List.nodup_cons.mp hnodup
    rw [List.foldl_cons]
    rcases List.mem_cons.mp h with rfl | hmem
    · rw [getElem?_foldl_set_of_notMem hfresh, List.getElem?_set_self hi]
    · exact ih hrest (by rw [List.length_set]; exact hi) hmem

/-- Every entry after some writes was there before or has been written. -/
theorem mem_of_mem_foldl_set {v : α} (h : v ∈ writes.foldl (fun l w => l.set w.1 w.2) l) :
    v ∈ l ∨ v ∈ writes.map Prod.snd := by
  induction writes generalizing l with
  | nil => exact .inl h
  | cons w rest ih =>
    rcases ih h with hset | hrest
    · rcases List.mem_or_eq_of_mem_set hset with hold | rfl
      · exact .inl hold
      · exact .inr List.mem_cons_self
    · exact .inr (List.mem_cons_of_mem _ hrest)

end Write

/-! ## Gathering and scattering -/

namespace BinaryMatrix

variable {m : BinaryMatrix} {order : List Nat}

theorem admitOrder_eq_ok_iff {n : Nat} :
    admitOrder order n = .ok () ↔ IsRangePermutation n order := by
  rw [RangePermutation.isRangePermutation_iff]
  unfold admitOrder
  by_cases hlength : order.length = n
  · rw [if_neg (by simpa using hlength)]
    cases RangePermutation.firstFault n order <;> simp [hlength]
  · simp [hlength]

theorem gatherRows_eq_ok (h : IsRangePermutation m.size order) :
    m.gatherRows order = .ok ⟨order.map m.row⟩ := by
  unfold gatherRows
  rw [admitOrder_eq_ok_iff.mpr h]
  rfl

theorem map_row_range (m : BinaryMatrix) : (List.range m.size).map m.row = m.rows := by
  apply List.ext_getElem
  · simp [size]
  · intro i _ hi
    simp [row, hi]

/-! ## Scattered rows -/

theorem length_scattered (m : BinaryMatrix) (order : List Nat) :
    (m.scattered order).length = m.size :=
  (length_foldl_set _ _).trans List.length_replicate

/-- Row `i` is written to the place that the order names at `i`. -/
theorem getD_scattered (h : IsRangePermutation m.size order) {i : Nat} (hi : i < m.size) :
    (m.scattered order).getD (order.getD i 0) 0 = m.row i := by
  have hlength := h.length_eq
  have hrow : i < m.rows.length := hi
  have hfst : (order.zip m.rows).map Prod.fst = order :=
    List.map_fst_zip (by rw [hlength]; rfl)
  have hmem : (order.getD i 0, m.row i) ∈ order.zip m.rows := by
    refine List.mem_iff_getElem.mpr ⟨i, by simp [hlength, hi, hrow], ?_⟩
    simp [row, hlength, hi, hrow]
  rw [scattered, List.getD_eq_getElem?_getD,
    getElem?_foldl_set_of_mem (by rw [hfst]; exact h.nodup) (by simpa using h.getD_lt hi) hmem]
  rfl

/-- Gathered rows are written back to their places. -/
theorem scattered_gathered (h : IsRangePermutation m.size order) :
    scattered ⟨order.map m.row⟩ order = m.rows := by
  have hsize : size ⟨order.map m.row⟩ = m.size := by
    rw [size, List.length_map, h.length_eq]
  apply eq_of_getD_eq ((length_scattered _ _).trans hsize)
  intro i hi
  rw [length_scattered, hsize] at hi
  -- Row `i` was gathered where the order names `i`.
  obtain ⟨p, hp, rfl⟩ := List.getElem_of_mem (h.mem hi)
  have hp' : p < size ⟨order.map m.row⟩ := by rw [hsize, ← h.length_eq]; exact hp
  have hentry := getD_scattered (hsize.symm ▸ h) hp'
  rw [List.getD_eq_getElem _ _ hp] at hentry
  rw [hentry]
  simp [row, hp]

theorem isSquare_scattered (hm : IsSquare m.size m.rows) (order : List Nat) :
    IsSquare m.size (m.scattered order) := by
  refine ⟨length_scattered m order, fun row hrow => ?_⟩
  rcases mem_of_mem_foldl_set hrow with hzero | hwritten
  · rw [List.eq_of_mem_replicate hzero]
    exact Nat.two_pow_pos _
  · obtain ⟨w, hw, rfl⟩ := List.mem_map.mp hwritten
    exact hm.row_lt _ (List.of_mem_zip hw).2

theorem scatterRows_eq (h : IsRangePermutation m.size order) :
    m.scatterRows order = ofRows (m.scattered order) := by
  unfold scatterRows
  rw [admitOrder_eq_ok_iff.mpr h]
  rfl

/-- Scattered rows only come as a matrix that fits them. -/
theorem wellFormed_of_scatterRows {m' : BinaryMatrix} (h : m.scatterRows order = .ok m') :
    m'.WellFormed := by
  unfold scatterRows at h
  cases hchecked : admitOrder order m.size with
  | error e =>
    rw [hchecked] at h
    cases h
  | ok u =>
    rw [hchecked] at h
    exact (ofRows_eq_ok_iff.mp h).2

/-- The scattered rows of a well formed matrix are accepted again. -/
theorem WellFormed.scatterRows_eq_ok (hm : m.WellFormed) (h : IsRangePermutation m.size order) :
    m.scatterRows order = .ok ⟨m.scattered order⟩ := by
  rw [scatterRows_eq h]
  exact ofRows_of_isSquare (isSquare_scattered hm.isSquare order) hm.size_le

/-- Every row is then found in the place that the order names for it. -/
theorem WellFormed.exists_scatterRows (hm : m.WellFormed) (h : IsRangePermutation m.size order) :
    ∃ s, m.scatterRows order = .ok s ∧ s.WellFormed ∧ s.size = m.size ∧
      ∀ i < m.size, s.row (order.getD i 0) = m.row i := by
  have hscatter := hm.scatterRows_eq_ok h
  exact ⟨_, hscatter, wellFormed_of_scatterRows hscatter, length_scattered m order,
    fun i hi => getD_scattered h hi⟩

/-- Scattering puts gathered rows back in their places. -/
theorem scatterRows_gathered (h : IsRangePermutation m.size order) :
    scatterRows ⟨order.map m.row⟩ order = ofRows m.rows := by
  have hsize : size ⟨order.map m.row⟩ = m.size := by
    rw [size, List.length_map, h.length_eq]
  rw [scatterRows_eq (hsize.symm ▸ h), scattered_gathered h]

/-- Gathering takes scattered rows back to their places. -/
theorem gatherRows_scattered (h : IsRangePermutation m.size order) :
    gatherRows ⟨m.scattered order⟩ order = .ok m := by
  have hsize : size ⟨m.scattered order⟩ = m.size := length_scattered m order
  have hrows : order.map (row ⟨m.scattered order⟩) = m.rows := by
    apply List.ext_getElem
    · rw [List.length_map, h.length_eq]
      rfl
    · intro i hi hi'
      have hentry := getD_scattered h hi'
      rw [List.length_map] at hi
      rw [List.getD_eq_getElem _ _ hi, row, List.getD_eq_getElem _ _ hi'] at hentry
      rw [List.getElem_map]
      exact hentry
  rw [gatherRows_eq_ok (hsize.symm ▸ h), hrows]

/-! ## Gathered rows as a matrix over the field -/

theorem isSquare_gathered {n : Nat} (hm : IsSquare n m.rows) (h : IsRangePermutation n order) :
    IsSquare n (order.map m.row) := by
  refine ⟨by rw [List.length_map, h.length_eq], List.forall_mem_map.mpr fun i _ => ?_⟩
  exact hm.getD_lt i

/-- Gathered rows are the rows of a submatrix. -/
theorem rowMatrix_gathered {n : Nat} (m : BinaryMatrix) (h : IsRangePermutation n order) :
    rowMatrix n (order.map m.row) =
      (rowMatrix n m.rows).submatrix (fun i : Fin n => ⟨order.getD i 0, h.getD_lt i.isLt⟩) id := by
  ext i j
  have hi : (i : Nat) < order.length := by rw [h.length_eq]; exact i.isLt
  rw [Matrix.submatrix_apply, rowMatrix_apply, rowMatrix_apply]
  simp [hi, row]

theorem isUnit_gathered (h : IsRangePermutation m.size order)
    (hunit : IsUnit (rowMatrix m.size m.rows)) :
    IsUnit (rowMatrix m.size (order.map m.row)) := by
  have hlength : (order.map m.row).length = m.size := by rw [List.length_map, h.length_eq]
  rw [isUnit_iff_annihilates hlength]
  intro v hv
  refine (isUnit_iff_annihilates rfl).mp hunit v fun row hrow => ?_
  rw [← map_row_range m] at hrow
  obtain ⟨i, hi, rfl⟩ := List.mem_map.mp hrow
  exact hv _ (List.mem_map_of_mem (h.mem (List.mem_range.mp hi)))

end BinaryMatrix

end CircuitSynthesis
