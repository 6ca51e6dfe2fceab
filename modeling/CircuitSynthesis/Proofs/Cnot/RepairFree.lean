import CircuitSynthesis.Proofs.Cnot.GateCount

/-!
# Elimination without repairs

The additions of elimination in blocks go down, except for repairs of zeros on
the diagonal. In which blocks the columns are taken changes what is added to
what, but not whether a repair is needed: there is none exactly when the leading
squares of the matrix have independent rows (`downward_iff_leadingRegular`).
Downward additions keep this property of a matrix, and being undone by
downward additions they also bring it back from the triangle at the end. The
elimination order is found column by column, without blocks, and yet it serves
every block width (`eliminationOrder_saves_repairs`).
-/

namespace CircuitSynthesis.Cnot

open BinaryMatrix

variable {n width : Nat} {rows : List Nat} {gates : List Cnot} {s : Progress}

/-- Without repairs, every addition goes down. -/
theorem repairs_eq_zero_iff_downward (hgates : ∀ g ∈ gates, g.WellFormed n) :
    repairs gates = 0 ↔ ∀ g ∈ gates, g.control < g.target := by
  rw [repairs_eq_zero_iff]
  refine forall₂_congr fun g hg => ⟨fun hle => ?_, Nat.le_of_lt⟩
  exact Nat.lt_of_le_of_ne hle (hgates g hg).ne

/-- **Repairs and leading squares.** Elimination that succeeds has only added
earlier rows to later ones exactly when the leading squares of the matrix have
independent rows, whatever the block width. -/
theorem downward_iff_leadingRegular (hlength : rows.length = n) (hwidth : 0 < width)
    (h : triangulate width rows = some s) :
    (∀ g ∈ s.performed, g.control < g.target) ↔ LeadingRegular n rows := by
  have hsparing := sparing_of_triangulate hlength hwidth h
  have hstage := hsparing.stage
  rw [← repairs_eq_zero_iff_downward hstage.wellFormed]
  refine ⟨fun hnone => ?_, hsparing.repairs_eq_zero⟩
  -- The same additions, all downward, lead from the triangle back to the rows.
  have htriangle : LeadingRegular n s.rows := hstage.triangular.leadingRegular
  have hback := leadingRegular_run htriangle (hstage.length_eq hlength) hstage.wellFormed hnone
  rwa [hstage.run_performed hlength] at hback

/-- **Elimination order.** An invertible matrix has an elimination order, which
is a permutation of its rows. With the rows in this order, elimination in blocks
of any width succeeds and only adds earlier rows to later ones. -/
theorem eliminationOrder_saves_repairs (m : BinaryMatrix) (hm : m.WellFormed)
    (hinv : m.isInvertible = true) :
    ∃ order ordered, eliminationOrder m = .ok order ∧ order.Perm (List.range m.size) ∧
      m.gatherRows order = .ok ordered ∧
      ∀ width, 1 ≤ width → ∃ s, triangulate width ordered.rows = some s ∧
        ∀ g ∈ s.performed, g.control < g.target := by
  have hunit : IsUnit (rowMatrix m.size m.rows) := isInvertible_iff_isUnit.mp hinv
  obtain ⟨order, horder, hperm⟩ := exists_eliminationOrder hunit
  refine ⟨order, _, horder, perm_range_of_isRangePermutation hperm, gatherRows_eq_ok hperm,
    fun width hwidth => ?_⟩
  have hordered : IsSquare m.size (order.map m.row) := isSquare_gathered hm.isSquare hperm
  obtain ⟨s, hs, -⟩ :=
    triangulate_of_isUnit hordered.length_eq (isUnit_gathered hperm hunit) hwidth
  refine ⟨s, hs, ?_⟩
  rw [downward_iff_leadingRegular hordered.length_eq hwidth hs]
  exact leadingRegular_of_eliminationOrder horder

/-- Six rows in blocks of four. In their own order the first column takes a
repair; in elimination order there is none, though the last block is ragged. -/
theorem eliminationOrder_saves_repairs_sixRows :
    BinaryMatrix.WellFormed ⟨[48, 38, 18, 63, 55, 14]⟩ ∧
    BinaryMatrix.isInvertible ⟨[48, 38, 18, 63, 55, 14]⟩ = true ∧
    (∃ s, triangulate 4 [48, 38, 18, 63, 55, 14] = some s ∧ ⟨3, 0⟩ ∈ s.performed) ∧
    ∃ s, triangulate 4 [63, 38, 18, 55, 48, 14] = some s ∧
      ∀ g ∈ s.performed, g.control < g.target := by
  have hm : BinaryMatrix.WellFormed ⟨[48, 38, 18, 63, 55, 14]⟩ := ⟨by decide, by decide⟩
  have hinv : BinaryMatrix.isInvertible ⟨[48, 38, 18, 63, 55, 14]⟩ = true := by decide +kernel
  obtain ⟨order, ordered, horder, -, hordered, hwidths⟩ :=
    eliminationOrder_saves_repairs _ hm hinv
  have horder' : eliminationOrder ⟨[48, 38, 18, 63, 55, 14]⟩ = .ok [3, 1, 2, 4, 0, 5] := by
    decide +kernel
  rw [horder'] at horder
  cases horder
  cases hordered
  exact ⟨hm, hinv, ⟨_, rfl, by decide +kernel⟩, hwidths 4 (by decide)⟩

end CircuitSynthesis.Cnot
