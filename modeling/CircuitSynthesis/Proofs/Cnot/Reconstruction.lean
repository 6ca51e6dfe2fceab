import CircuitSynthesis.Proofs.BinaryMatrix.Invertibility
import CircuitSynthesis.Proofs.Cnot.Triangulation

/-!
# Matrices from CNOTs

Elimination of an invertible matrix leaves an upper triangle, and elimination
of the transpose of that triangle leaves the identity. Joined, the two lists
of row additions make the matrix out of the unit parities, whatever the block
width.
-/

namespace CircuitSynthesis.Cnot

/-- The gates are well formed on `n` qubits and make `rows` out of the unit
parities. -/
structure Makes (n : Nat) (gates : List Cnot) (rows : List Nat) : Prop where
  wellFormed : ∀ g ∈ gates, g.WellFormed n
  run_units : run (Bits.units n) gates = rows

/-- Two eliminations in a row succeed on an invertible matrix, with rows in
between that fit its size, and what they performed makes the matrix. -/
theorem triangulate_twice {n width : Nat} {rows : List Nat} (hrows : IsSquare n rows)
    (hunit : IsUnit (rowMatrix n rows)) (hwidth : 0 < width) :
    ∃ lower upper, triangulate width rows = some lower ∧ IsSquare n lower.rows ∧
      triangulate width (BinaryMatrix.transpose ⟨lower.rows⟩).rows = some upper ∧
      Makes n (upper.performed.reverse.map flip ++ lower.performed) rows := by
  obtain ⟨lower, hlower, hstage⟩ := triangulate_of_isUnit hrows.length_eq hunit hwidth
  have hbetween : IsSquare n lower.rows := by
    rw [hstage.rows_eq]
    exact isSquare_run hrows _
  have hlength : lower.rows.length = n := hbetween.length_eq
  have htranspose : IsSquare n (BinaryMatrix.transpose ⟨lower.rows⟩).rows :=
    isSquare_transpose hlength
  have hunit' : IsUnit (rowMatrix n (BinaryMatrix.transpose ⟨lower.rows⟩).rows) := by
    rw [rowMatrix_transpose hlength, Matrix.isUnit_transpose]
    exact hstage.isUnit hrows.length_eq hunit
  obtain ⟨upper, hupper, hstage'⟩ := triangulate_of_isUnit htranspose.length_eq hunit' hwidth
  -- The second pass starts from a lower triangle, so it ends in the identity.
  have hend : upper.rows = Bits.units n :=
    (hstage'.lower (hstage.triangular.lowerUnitriangular_transpose hlength)).eq_units
      hstage'.triangular (hstage'.length_eq htranspose.length_eq)
  rw [hstage'.rows_eq, hstage.rows_eq] at hend
  have hlowerGates : ∀ g ∈ lower.performed.reverse, g.WellFormed n := fun g hg =>
    hstage.wellFormed g (List.mem_reverse.mp hg)
  have hupperGates : ∀ g ∈ upper.performed.reverse, g.WellFormed n := fun g hg =>
    hstage'.wellFormed g (List.mem_reverse.mp hg)
  refine ⟨lower, upper, hlower, hbetween, hupper, ?_, ?_⟩
  · intro g hg
    rcases List.mem_append.mp hg with hg | hg
    · obtain ⟨g', hg', rfl⟩ := List.mem_map.mp hg
      exact (hupperGates g' hg').flip
    · exact hstage.wellFormed g hg
  · have hjoin := run_join hrows hlowerGates hupperGates hend
    rwa [List.reverse_reverse] at hjoin

theorem triangular_eq_ok {width : Nat} {rows : List Nat} {s : Progress}
    (h : triangulate width rows = some s) : triangular width rows = .ok s := by
  rw [triangular, h]

/-- The gates of two eliminations in a row. -/
theorem forMatrix_eq_ok {m : BinaryMatrix} {k : Nat} (hk : 0 < k) (hsize : 0 < m.size)
    {lower upper : Progress} (hlower : triangulate (min k m.size) m.rows = some lower)
    (hbetween : BinaryMatrix.ofRows lower.rows = .ok ⟨lower.rows⟩)
    (hupper : triangulate (min k m.size) (BinaryMatrix.transpose ⟨lower.rows⟩).rows = some upper) :
    forMatrix m k = .ok (upper.performed.reverse.map flip ++ lower.performed) := by
  unfold forMatrix
  rw [if_neg (Nat.pos_iff_ne_zero.mp hk), if_neg (Nat.pos_iff_ne_zero.mp hsize)]
  simp only [triangular_eq_ok hlower, hbetween, triangular_eq_ok hupper, bind, Except.bind]
  rfl

/-- Without rows there is nothing to make. -/
theorem forMatrix_of_size_eq_zero {m : BinaryMatrix} {k : Nat} (hk : 0 < k) (hsize : m.size = 0) :
    forMatrix m k = .ok [] := by
  unfold forMatrix
  rw [if_neg (Nat.pos_iff_ne_zero.mp hk), if_pos hsize]

/-- Every partition size yields gates for an invertible matrix. -/
theorem exists_forMatrix {m : BinaryMatrix} (hm : m.WellFormed)
    (hunit : IsUnit (rowMatrix m.size m.rows)) {k : Nat} (hk : 0 < k) :
    ∃ gates, forMatrix m k = .ok gates ∧ Makes m.size gates m.rows := by
  rcases Nat.eq_zero_or_pos m.size with hsize | hsize
  · refine ⟨[], forMatrix_of_size_eq_zero hk hsize, by simp, ?_⟩
    rw [run_nil, hsize, List.eq_nil_of_length_eq_zero hsize]
    rfl
  · obtain ⟨lower, upper, hlower, hbetween, hupper, hmakes⟩ :=
      triangulate_twice hm.isSquare hunit (show 0 < min k m.size by omega)
    have haccept := BinaryMatrix.ofRows_of_isSquare hbetween hm.size_le
    exact ⟨_, forMatrix_eq_ok hk hsize hlower haccept hupper, hmakes⟩

/-- **Reconstruction.** For an invertible matrix and any partition size from
one on, there are gates; each joins two different qubits of the matrix, and
together they make its rows out of the unit parities. -/
theorem forMatrix_makes_rows (m : BinaryMatrix) (hm : m.WellFormed) (hinv : m.isInvertible = true)
    (k : Nat) (hk : 1 ≤ k) :
    ∃ gates, forMatrix m k = .ok gates ∧
      (∀ g ∈ gates, g.control ≠ g.target ∧ g.control < m.size ∧ g.target < m.size) ∧
      run (Bits.units m.size) gates = m.rows := by
  have hunit : IsUnit (rowMatrix m.size m.rows) := isInvertible_iff_isUnit.mp hinv
  obtain ⟨gates, hgates, hmakes⟩ := exists_forMatrix hm hunit hk
  refine ⟨gates, hgates, fun g hg => ?_, hmakes.run_units⟩
  have hwf := hmakes.wellFormed g hg
  exact ⟨hwf.ne, hwf.control_lt, hwf.target_lt⟩

/-- Size five in blocks of two: the last block is ragged, and the first
diagonal entry needs repair. -/
theorem forMatrix_makes_rows_ragged :
    BinaryMatrix.WellFormed ⟨[6, 3, 13, 24, 9]⟩ ∧
    BinaryMatrix.isInvertible ⟨[6, 3, 13, 24, 9]⟩ = true ∧
    ∃ gates, forMatrix ⟨[6, 3, 13, 24, 9]⟩ 2 = .ok gates ∧
      (∀ g ∈ gates, g.control ≠ g.target ∧ g.control < 5 ∧ g.target < 5) ∧
      run (Bits.units 5) gates = [6, 3, 13, 24, 9] := by
  have hm : BinaryMatrix.WellFormed ⟨[6, 3, 13, 24, 9]⟩ := ⟨by decide, by decide⟩
  have hinv : BinaryMatrix.isInvertible ⟨[6, 3, 13, 24, 9]⟩ = true := by decide +kernel
  exact ⟨hm, hinv, forMatrix_makes_rows _ hm hinv 2 (by decide)⟩

end CircuitSynthesis.Cnot
