import CircuitSynthesis.Proofs.BinaryMatrix.Field
import CircuitSynthesis.Synthesis.Cnot

/-!
# CNOTs as row operations

A list of CNOTs acts on the parities of the qubits by a fixed matrix from the
left: the one it makes of the unit parities. Run backwards it undoes itself,
and with controls and targets exchanged, run backwards, it has the transposed
matrix. From this follows how the operations of two eliminations, one of a
matrix and one of the transpose of what the first left, are joined to a list
that produces the matrix (`run_join`).
-/

namespace CircuitSynthesis.Cnot

/-- The gate joins two different qubits among the first `n`. -/
structure WellFormed (n : Nat) (g : Cnot) : Prop where
  control_lt : g.control < n
  target_lt : g.target < n
  ne : g.control ≠ g.target

theorem WellFormed.flip {n : Nat} {g : Cnot} (h : g.WellFormed n) : g.flip.WellFormed n :=
  ⟨h.target_lt, h.control_lt, h.ne.symm⟩

variable {n : Nat} {rows : List Nat} {g : Cnot} {gates : List Cnot}

@[simp] theorem run_nil (rows : List Nat) : run rows [] = rows := rfl

@[simp] theorem run_cons (rows : List Nat) (g : Cnot) (gates : List Cnot) :
    run rows (g :: gates) = run (act rows g) gates := rfl

theorem run_append (rows : List Nat) (first second : List Cnot) :
    run rows (first ++ second) = run (run rows first) second := List.foldl_append

@[simp] theorem length_act (rows : List Nat) (g : Cnot) : (act rows g).length = rows.length :=
  length_addRow rows g.target g.control

theorem getD_act (h : g.target < rows.length) (i : Nat) :
    (act rows g).getD i 0 =
      if i = g.target then rows.getD g.target 0 ^^^ rows.getD g.control 0 else rows.getD i 0 :=
  getD_addRow h g.control i

@[simp] theorem length_run (rows : List Nat) (gates : List Cnot) :
    (run rows gates).length = rows.length := by
  induction gates generalizing rows with
  | nil => rfl
  | cons g gates ih => rw [run_cons, ih, length_act]

theorem isSquare_run (h : IsSquare n rows) (gates : List Cnot) : IsSquare n (run rows gates) := by
  induction gates generalizing rows with
  | nil => exact h
  | cons g gates ih => exact ih (h.addRow g.target g.control)

/-! ## Undoing -/

theorem act_act (hg : g.WellFormed n) (hlength : rows.length = n) : act (act rows g) g = rows := by
  have htarget : g.target < rows.length := by rw [hlength]; exact hg.target_lt
  have htarget' : g.target < (act rows g).length := by rw [length_act]; exact htarget
  apply eq_of_getD_eq (by rw [length_act, length_act])
  intro i _
  rw [getD_act htarget', getD_act htarget, getD_act htarget, getD_act htarget, if_pos rfl,
    if_neg hg.ne]
  by_cases hi : i = g.target
  · rw [if_pos hi, hi, Nat.xor_assoc, Nat.xor_self, Nat.xor_zero]
  · rw [if_neg hi, if_neg hi]

/-- A list of gates run backwards undoes the list. -/
theorem run_run_reverse (hgates : ∀ g ∈ gates, g.WellFormed n) (hlength : rows.length = n) :
    run (run rows gates) gates.reverse = rows := by
  induction gates generalizing rows with
  | nil => rfl
  | cons g gates ih =>
    have hact : (act rows g).length = n := by rw [length_act, hlength]
    rw [run_cons, List.reverse_cons, run_append,
      ih (fun g' hg' => hgates g' (List.mem_cons_of_mem _ hg')) hact]
    exact act_act (hgates g List.mem_cons_self) hlength

/-! ## The matrix of a list of gates -/

theorem rowMatrix_act (hg : g.WellFormed n) (hlength : rows.length = n) :
    rowMatrix n (act rows g) =
      Matrix.transvection ⟨g.target, hg.target_lt⟩ ⟨g.control, hg.control_lt⟩ 1 *
        rowMatrix n rows :=
  rowMatrix_addRow hlength hg.target_lt hg.control_lt

/-- The gates multiply by the matrix that they make of the unit parities. -/
theorem rowMatrix_run (hgates : ∀ g ∈ gates, g.WellFormed n) (hlength : rows.length = n) :
    rowMatrix n (run rows gates) = rowMatrix n (run (Bits.units n) gates) * rowMatrix n rows := by
  induction gates using List.reverseRecOn with
  | nil => rw [run_nil, run_nil, rowMatrix_units, Matrix.one_mul]
  | append_singleton gates g ih =>
    have hg : g.WellFormed n := hgates g (by simp)
    have hrest : ∀ g' ∈ gates, g'.WellFormed n := fun g' hg' =>
      hgates g' (List.mem_append_left _ hg')
    rw [run_append, run_append, run_cons, run_cons, run_nil, run_nil,
      rowMatrix_act hg (by rw [length_run, hlength]),
      rowMatrix_act hg (by rw [length_run, Bits.length_units]), ih hrest, Matrix.mul_assoc]

theorem rowMatrix_run_reverse_mul (hgates : ∀ g ∈ gates, g.WellFormed n) :
    rowMatrix n (run (Bits.units n) gates.reverse) * rowMatrix n (run (Bits.units n) gates) =
      1 := by
  have hreverse : ∀ g ∈ gates.reverse, g.WellFormed n := fun g hg =>
    hgates g (List.mem_reverse.mp hg)
  rw [← rowMatrix_run hreverse (by rw [length_run, Bits.length_units]),
    run_run_reverse hgates (Bits.length_units n), rowMatrix_units]

theorem isUnit_rowMatrix_run (hgates : ∀ g ∈ gates, g.WellFormed n) (hlength : rows.length = n)
    (hunit : IsUnit (rowMatrix n rows)) : IsUnit (rowMatrix n (run rows gates)) := by
  rw [rowMatrix_run hgates hlength]
  exact (isUnit_iff_exists_inv'.mpr ⟨_, rowMatrix_run_reverse_mul hgates⟩).mul hunit

/-- Exchanging controls and targets and reversing the order transposes. -/
theorem transpose_rowMatrix_run (hgates : ∀ g ∈ gates, g.WellFormed n) :
    (rowMatrix n (run (Bits.units n) gates)).transpose =
      rowMatrix n (run (Bits.units n) (gates.reverse.map flip)) := by
  induction gates with
  | nil => rw [run_nil, List.reverse_nil, List.map_nil, run_nil, rowMatrix_units,
      Matrix.transpose_one]
  | cons g gates ih =>
    have hg : g.WellFormed n := hgates g List.mem_cons_self
    have hrest : ∀ g' ∈ gates, g'.WellFormed n := fun g' hg' =>
      hgates g' (List.mem_cons_of_mem _ hg')
    have hact : (act (Bits.units n) g).length = n := by rw [length_act, Bits.length_units]
    rw [run_cons, rowMatrix_run hrest hact, rowMatrix_act hg (Bits.length_units n),
      rowMatrix_units, Matrix.mul_one, Matrix.transpose_mul, transpose_transvection, ih hrest,
      List.reverse_cons, List.map_append, run_append, List.map_cons, List.map_nil, run_cons,
      run_nil, rowMatrix_act hg.flip (by rw [length_run, Bits.length_units])]
    rfl

/-- The operations `lower` on the rows and `upper` on the transpose of what is
left end in the identity. Then `upper` with controls and targets exchanged,
followed by `lower` backwards, makes the rows out of the unit parities. -/
theorem run_join {lower upper : List Cnot} (hrows : IsSquare n rows)
    (hlower : ∀ g ∈ lower, g.WellFormed n) (hupper : ∀ g ∈ upper, g.WellFormed n)
    (h : run (BinaryMatrix.transpose ⟨run rows lower⟩).rows upper = Bits.units n) :
    run (Bits.units n) (upper.map flip ++ lower.reverse) = rows := by
  have hlength : (run rows lower).length = n := by rw [length_run, hrows.length_eq]
  have hflip : ∀ g ∈ upper.map flip, g.WellFormed n := by
    intro g hg
    obtain ⟨g', hg', rfl⟩ := List.mem_map.mp hg
    exact (hupper g' hg').flip
  -- What `lower` left, times the transpose of the matrix of `upper`, is one.
  have hleft : rowMatrix n (run rows lower) *
      rowMatrix n (run (Bits.units n) (upper.map flip).reverse) = 1 := by
    have hone := congrArg (rowMatrix n) h
    rw [rowMatrix_run hupper (isSquare_transpose hlength).length_eq, rowMatrix_transpose hlength,
      rowMatrix_units] at hone
    have htranspose := congrArg Matrix.transpose hone
    rwa [Matrix.transpose_mul, Matrix.transpose_transpose, transpose_rowMatrix_run hupper,
      Matrix.transpose_one, List.map_reverse] at htranspose
  have hright := rowMatrix_run_reverse_mul hflip
  have hmiddle : run (Bits.units n) (upper.map flip) = run rows lower := by
    apply eq_of_rowMatrix_eq (isSquare_run (isSquare_units n) _) (isSquare_run hrows _)
    exact (left_inv_eq_right_inv hleft hright).symm
  rw [run_append, hmiddle]
  exact run_run_reverse hlower hrows.length_eq

end CircuitSynthesis.Cnot
