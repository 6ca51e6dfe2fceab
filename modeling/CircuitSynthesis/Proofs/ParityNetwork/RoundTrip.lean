import CircuitSynthesis.Proofs.Cnot.Recipe
import CircuitSynthesis.Proofs.ParityNetwork.Coverage

/-!
# Parity networks realize phases and maps

For every problem that can be solved, synthesis appends a parity network with
its turns, and then a recipe for the linear map that is still missing
(`appendTo_eq_ok`). On a circuit of its own the turns give every basis state
the phase of the polynomial, and the CNOTs of both parts together give the
linear map that was asked for, up to the row order that the recipe leaves in
the wire permutation.
-/

namespace CircuitSynthesis

namespace ParityNetwork

/-- The width is supported, the masks fit it, the map to be left is invertible,
and the partition size is usable. -/
structure Solvable (n : Nat) (terms : PhasePolynomial) (o : ParityOptions) : Prop where
  width_le : n ≤ maxWidth
  masks_fit : ∀ mask ∈ terms.masks, mask ≠ 0 ∧ mask < 2 ^ n
  transform_invertible : ∀ m ∈ o.transform, m.WellFormed ∧ m.size = n ∧ m.isInvertible = true
  partition_usable : o.cnot.searchPartition = true ∨ 1 ≤ o.cnot.partitionSize

/-- The map to be left on the qubits; the identity when there is none. -/
def transformOf (n : Nat) (o : ParityOptions) : BinaryMatrix := o.transform.getD ⟨Bits.units n⟩

variable {n : Nat} {terms : PhasePolynomial} {o : ParityOptions}

theorem Solvable.isUsable (h : Solvable n terms o) : o.cnot.isUsable = true :=
  CnotOptions.isUsable_iff.mpr h.partition_usable

theorem Solvable.nonzero_masks_fit (h : Solvable n terms o) :
    ∀ mask ∈ terms.nonzero.masks, mask ≠ 0 ∧ mask < 2 ^ n := fun mask hmask =>
  h.masks_fit mask (PhasePolynomial.mem_masks_of_nonzero hmask)

/-- The map to be left is an invertible matrix of the right size, also when it
is the identity. -/
theorem Solvable.transformOf_invertible (h : Solvable n terms o) :
    (transformOf n o).size = n ∧ IsSquare n (transformOf n o).rows ∧
      IsUnit (rowMatrix n (transformOf n o).rows) := by
  unfold transformOf
  cases hm : o.transform with
  | none =>
    refine ⟨Bits.length_units n, isSquare_units n, ?_⟩
    show IsUnit (rowMatrix n (Bits.units n))
    rw [rowMatrix_units]
    exact isUnit_one
  | some m =>
    obtain ⟨hwf, hsize, hinv⟩ := h.transform_invertible m hm
    exact ⟨hsize, hsize ▸ hwf.isSquare, hsize ▸ isInvertible_iff_isUnit.mp hinv⟩

theorem Solvable.goal_eq_ok (h : Solvable n terms o) : goal o n = .ok (transformOf n o) := by
  have hinv : (transformOf n o).isInvertible = true := by
    obtain ⟨hsize, -, hunit⟩ := h.transformOf_invertible
    rw [isInvertible_iff_isUnit, hsize]
    exact hunit
  unfold goal
  unfold transformOf at hinv ⊢
  cases hm : o.transform with
  | none =>
    rw [hm] at hinv
    have hidentity : BinaryMatrix.identity n = .ok ⟨Bits.units n⟩ := by
      unfold BinaryMatrix.identity
      rw [admitQubits_of_le (show n ≤ BinaryMatrix.maxSize from h.width_le)]
      rfl
    change BinaryMatrix.isInvertible ⟨Bits.units n⟩ = true at hinv
    simp [hidentity, hinv, bind, Except.bind, pure, Except.pure]
  | some m =>
    rw [hm] at hinv
    change m.isInvertible = true at hinv
    have hsize := (h.transform_invertible m hm).2.1
    simp [hsize, hinv, bind, Except.bind, pure, Except.pure]

/-! ## What is missing after the network -/

/-- The reached map is a matrix with an inverse. The residual is invertible,
and leads from the reached map to the goal. -/
theorem exists_residual {goal : BinaryMatrix} {network : List Cnot} (hn : n ≤ maxWidth)
    (hgoal : IsSquare n goal.rows) (hunit : IsUnit (rowMatrix n goal.rows))
    (hnetwork : ∀ g ∈ network, g.WellFormed n) :
    ∃ inverse residual : BinaryMatrix,
      BinaryMatrix.ofRows (Cnot.run (Bits.units n) network) =
        .ok ⟨Cnot.run (Bits.units n) network⟩ ∧
      BinaryMatrix.inverse ⟨Cnot.run (Bits.units n) network⟩ = .ok inverse ∧
      goal.mul inverse = .ok residual ∧ IsSquare n residual.rows ∧
      IsUnit (rowMatrix n residual.rows) ∧
      rowMatrix n residual.rows * rowMatrix n (Cnot.run (Bits.units n) network) =
        rowMatrix n goal.rows := by
  have hsquare := Cnot.isSquare_run (isSquare_units n) network
  have hreached : IsUnit (rowMatrix n (Cnot.run (Bits.units n) network)) := by
    refine Cnot.isUnit_rowMatrix_run hnetwork (Bits.length_units n) ?_
    rw [rowMatrix_units]
    exact isUnit_one
  have hsize : BinaryMatrix.size ⟨Cnot.run (Bits.units n) network⟩ = n := hsquare.length_eq
  have hwf : BinaryMatrix.WellFormed ⟨Cnot.run (Bits.units n) network⟩ :=
    BinaryMatrix.wellFormed_of_isSquare hsquare hn
  obtain ⟨inverse, hinverse, hisquare, hone⟩ :=
    exists_inverse_of_isUnit hwf (by rw [hsize]; exact hreached)
  rw [hsize] at hisquare hone
  have hproduct := rowMatrix_map_combination hgoal.length_eq hisquare.length_eq
  refine ⟨inverse, ⟨goal.rows.map (combination inverse.rows)⟩,
    BinaryMatrix.ofRows_eq_ok_iff.mpr ⟨rfl, hwf⟩, hinverse, ?_, ⟨?_, ?_⟩, ?_, ?_⟩
  · exact if_pos (hgoal.length_eq.trans hisquare.length_eq.symm)
  · rw [List.length_map, hgoal.length_eq]
  · exact List.forall_mem_map.mpr fun row _ => combination_lt hisquare.row_lt row
  · rw [hproduct]
    exact hunit.mul (isUnit_iff_exists_inv.mpr ⟨_, hone⟩)
  · rw [hproduct, Matrix.mul_assoc, hone, Matrix.mul_one]

/-- The recipe completes a network: together they make the rows of the goal
in the order of the recipe. -/
structure Completes (n : Nat) (goal : BinaryMatrix) (o : CnotOptions) (network : List Cnot)
    (r : Cnot.Recipe) : Prop where
  wellFormed : ∀ g ∈ r.gates, g.WellFormed n
  isPermutation : IsRangePermutation n (r.rowOrder n)
  run_units : Cnot.run (Bits.units n) (network ++ r.gates) = (r.rowOrder n).map goal.row
  order_eq_none : o.allowRewiring = false → r.order = none

/-- A recipe for the residual completes the network. -/
theorem completes_of_delivers {goal residual : BinaryMatrix} {network : List Cnot}
    {r : Cnot.Recipe} {o : CnotOptions} (hgoal : IsSquare n goal.rows)
    (hresidual : IsSquare n residual.rows)
    (hproduct : rowMatrix n residual.rows * rowMatrix n (Cnot.run (Bits.units n) network) =
      rowMatrix n goal.rows)
    (hr : r.Delivers residual o) : Completes n goal o network r := by
  have hsize : residual.size = n := hresidual.length_eq
  have hperm : IsRangePermutation n (r.rowOrder n) := hsize ▸ hr.isPermutation
  have hmakes : Cnot.Makes n r.gates ((r.rowOrder n).map residual.row) := hsize ▸ hr.makes
  refine ⟨hmakes.wellFormed, hperm, ?_, hr.order_eq_none⟩
  apply eq_of_rowMatrix_eq (Cnot.isSquare_run (isSquare_units n) _)
    (BinaryMatrix.isSquare_gathered hgoal hperm)
  rw [Cnot.run_append, Cnot.rowMatrix_run hmakes.wellFormed
    (by rw [Cnot.length_run, Bits.length_units]), hmakes.run_units,
    BinaryMatrix.rowMatrix_gathered residual hperm, BinaryMatrix.rowMatrix_gathered goal hperm,
    ← hproduct, Matrix.submatrix_mul _ _ _ id _ Function.bijective_id, Matrix.submatrix_id_id]

/-! ## Appending -/

/-- The CNOTs of the network for a polynomial. -/
def network (n : Nat) (terms : PhasePolynomial) : List Cnot := gates n terms.nonzero.masks

/-- The network with the turns of the polynomial. -/
def walk (n : Nat) (terms : PhasePolynomial) : List PhaseStep :=
  PhaseWalk.steps n terms (network n terms)

theorem Solvable.wellFormed_walk (h : Solvable n terms o) :
    ∀ s ∈ walk n terms, s.WellFormed n :=
  PhaseWalk.wellFormed_steps terms (wellFormed_gates h.nonzero_masks_fit)

/-- One recipe completes the network, and both are appended on every accepted
placement. -/
theorem exists_edit_eq_ok (h : Solvable n terms o) :
    ∃ r, Completes n (transformOf n o) o.cnot (network n terms) r ∧
      ∀ (c : Circuit) (p : Placement), p.Fits c n → IsRangePermutation c.wireCount c.rewiring →
        ∃ events, edit p terms o c = .ok events
          (r.placeOn (((walk n terms).map (·.toGate p)).foldl Circuit.place c) p) := by
  obtain ⟨-, hgoal, hunit⟩ := h.transformOf_invertible
  obtain ⟨inverse, residual, hreached, hinverse, hmul, hresidual, hresidualUnit, hproduct⟩ :=
    exists_residual h.width_le hgoal hunit (wellFormed_gates h.nonzero_masks_fit)
  have hsize : residual.size = n := hresidual.length_eq
  obtain ⟨r, corrections, hr, hcorrect⟩ : ∃ r corrections, Cnot.Recipe.Delivers residual o.cnot r ∧
      if residual.isIdentity = true then r = ⟨[], none, []⟩
      else ∀ (c : Circuit) (p : Placement), p.Fits c residual.size →
        IsRangePermutation c.wireCount c.rewiring →
        Cnot.edit p residual o.cnot c = .ok corrections (r.placeOn c p) := by
    by_cases hidentity : residual.isIdentity = true
    · -- The network happens to end in the goal.
      have hunits : residual.rows = Bits.units residual.size := by
        simpa [BinaryMatrix.isIdentity] using hidentity
      refine ⟨⟨[], none, []⟩, [], Cnot.Recipe.delivers_in_order [] (Cnot.makes_nil hunits), ?_⟩
      rw [if_pos hidentity]
    · simp only [if_neg hidentity]
      exact Cnot.exists_edit_eq_ok (BinaryMatrix.wellFormed_of_isSquare hresidual h.width_le)
        (by rw [hsize]; exact hresidualUnit) h.isUsable
  refine ⟨r, completes_of_delivers hgoal hresidual hproduct hr, fun c p hp hrewiring => ?_⟩
  have hadmits : ∀ g ∈ (walk n terms).map (·.toGate p), c.Admits g :=
    List.forall_mem_map.mpr fun s hs => PhaseStep.admits_toGate hp (h.wellFormed_walk s hs)
  have hemit : Edit.emitAll ((PhaseWalk.steps n terms (network n terms)).map (·.toGate p)) c =
      .ok () (((walk n terms).map (·.toGate p)).foldl Circuit.place c) :=
    Edit.emitAll_of_admits hadmits
  have hvalidate := PhasePolynomial.validate_eq_ok_iff.mpr h.masks_fit
  unfold network at hemit
  unfold edit
  simp only [hp.length_eq]
  -- The checks pass, the walk is appended, and the residual is found.
  rw [lift_bind_ok (admitQubits_of_le h.width_le), get_bind,
    lift_bind_ok (Placement.check_eq_ok_iff.mpr hp), lift_bind_ok hvalidate,
    lift_bind_ok h.goal_eq_ok, lift_bind_ok (CnotOptions.validate_eq_ok_iff.mpr h.isUsable),
    bind_ok hemit, lift_bind_ok hreached, lift_bind_ok hinverse, lift_bind_ok hmul]
  by_cases hidentity : residual.isIdentity = true
  · rw [if_pos hidentity] at hcorrect ⊢
    rw [hcorrect]
    exact ⟨_, rfl⟩
  · have hplaced : p.Fits (((walk n terms).map (·.toGate p)).foldl Circuit.place c)
        residual.size := by
      rw [hsize]
      exact hp.congr (Circuit.foldl_place_declarations _ c).symm
    rw [if_neg hidentity] at hcorrect ⊢
    rw [get_bind, bind_ok (hcorrect _ p hplaced
      (by rwa [Circuit.foldl_place_wireCount, Circuit.foldl_place_rewiring]))]
    exact ⟨_, rfl⟩

/-- On an accepted placement the network and a recipe that completes it are
appended. -/
theorem edit_eq_ok {c : Circuit} {p : Placement} (h : Solvable n terms o) (hp : p.Fits c n)
    (hrewiring : IsRangePermutation c.wireCount c.rewiring) :
    ∃ r events, edit p terms o c = .ok events
        (r.placeOn (((walk n terms).map (·.toGate p)).foldl Circuit.place c) p) ∧
      Completes n (transformOf n o) o.cnot (network n terms) r := by
  obtain ⟨r, hr, hedit⟩ := exists_edit_eq_ok h
  obtain ⟨events, hedit⟩ := hedit c p hp hrewiring
  exact ⟨r, events, hedit, hr⟩

theorem appendTo_eq_ok {c : Circuit} {p : Placement} (h : Solvable n terms o) (hp : p.Fits c n)
    (hrewiring : IsRangePermutation c.wireCount c.rewiring) :
    ∃ r events, appendTo c p terms o = .ok
        ⟨r.placeOn (((walk n terms).map (·.toGate p)).foldl Circuit.place c) p, events⟩ ∧
      Completes n (transformOf n o) o.cnot (network n terms) r := by
  obtain ⟨r, events, hedit, hr⟩ := edit_eq_ok h hp hrewiring
  exact ⟨r, events, Edit.apply_of_eq_ok hedit, hr⟩

/-- On a circuit of its own, the gates are those of the network and of the
recipe, and the wire permutation is the order of the recipe. -/
theorem exists_synthesize (h : Solvable n terms o) :
    ∃ s r, synthesize n terms o = .ok s ∧
      Completes n (transformOf n o) o.cnot (network n terms) r ∧
      s.circuit.wireCount = n ∧ s.circuit.rewiring = r.rowOrder n ∧
      s.circuit.liveGates = (walk n terms ++ r.gates.map PhaseStep.cnot).map
        (PhaseStep.toGate ((List.range n).map Wire.qubit)) := by
  obtain ⟨r, events, happend, hr⟩ := appendTo_eq_ok h (Circuit.fits_ofQubits n)
    (Circuit.isRangePermutation_rewiring_ofQubits n)
  rw [Circuit.ofQubits_qubits] at happend
  have hsynthesize : synthesize n terms o =
      appendTo (Circuit.ofQubits n) ((List.range n).map Wire.qubit) terms o := by
    unfold synthesize
    rw [admitQubits_of_le h.width_le, ← Circuit.ofQubits_qubits]
    rfl
  refine ⟨_, r, hsynthesize.trans happend, hr, ?_, ?_, ?_⟩
  · show Circuit.wireCount (List.foldl _ _ _) = n
    rw [Circuit.foldl_place_wireCount, Circuit.foldl_place_wireCount, Circuit.ofQubits_wireCount]
  · have hperm := hr.isPermutation
    unfold Cnot.Recipe.placeOn Cnot.Recipe.rowOrder
    unfold Cnot.Recipe.rowOrder at hperm
    simp only [Circuit.foldl_place_rewiring, Circuit.ofQubits_rewiring]
    cases horder : r.order with
    | none => rfl
    | some order =>
      rw [horder] at hperm
      exact Cnot.composeOrder_ofQubits hperm
  · show Circuit.liveGates (List.foldl _ _ _) = _
    rw [Circuit.foldl_place_liveGates, Circuit.foldl_place_liveGates, Circuit.ofQubits_liveGates,
      List.nil_append, List.map_append, List.map_map]
    rfl

/-! ## The round trips -/

/-- **Phases.** With exact angles, every basis state picks up on the
synthesized circuit the phase that the polynomial gives it. -/
theorem synthesize_phaseOf (n : Nat) (terms : PhasePolynomial) (o : ParityOptions)
    (h : Solvable n terms o) (hexact : ∀ t ∈ terms.terms, t.2.isExact = true) :
    ∃ s, synthesize n terms o = .ok s ∧ ∀ x, s.circuit.phaseOf x = .ok (terms.phaseAt x) := by
  obtain ⟨s, r, hs, hr, hwires, -, hgates⟩ := exists_synthesize h
  refine ⟨s, hs, fun x => ?_⟩
  have hsteps : ∀ s ∈ walk n terms ++ r.gates.map PhaseStep.cnot, s.WellFormed n := by
    intro s hs
    rcases List.mem_append.mp hs with hs | hs
    · exact h.wellFormed_walk s hs
    · obtain ⟨g, hg, rfl⟩ := List.mem_map.mp hs
      exact hr.wellFormed g hg
  -- The recipe has no turns, and the network turns every nonzero term once.
  have hturns : (PhaseStep.turns (Bits.units n)
      (walk n terms ++ r.gates.map PhaseStep.cnot)).Perm terms.nonzero.terms := by
    rw [PhaseStep.turns_append, PhaseStep.turns_map_cnot, List.append_nil]
    exact PhaseWalk.turns_steps_perm fun mask hmask => unit_or_reached h.nonzero_masks_fit hmask
  rw [PhaseStep.phaseOf_eq h.width_le hwires hsteps hgates,
    PhasePolynomial.sum_picked_eq_phaseAt hturns hexact]

/-- Four terms on three qubits, one of them zero, with a map to be left that
may be delivered up to a wire permutation. -/
theorem synthesize_phaseOf_three_qubits :
    let terms : PhasePolynomial :=
      ⟨[(3, .turn 1), (5, .turn 3), (6, .turn 0), (7, .turn 2)], by decide⟩
    let o : ParityOptions := ⟨some ⟨[6, 3, 1]⟩, ⟨2, false, true⟩⟩
    Solvable 3 terms o ∧ (∀ t ∈ terms.terms, t.2.isExact = true) ∧
      ∃ s, synthesize 3 terms o = .ok s ∧ s.circuit.phaseOf 2 = .ok (.turn 3) := by
  intro terms o
  have hsolvable : Solvable 3 terms o := by
    refine ⟨by decide, by decide, ?_, .inr (by decide)⟩
    rintro _ ⟨⟩
    exact ⟨⟨by decide, by decide⟩, rfl, by decide +kernel⟩
  have hexact : ∀ t ∈ terms.terms, t.2.isExact = true := by simp [terms, Angle.isExact]
  obtain ⟨s, hs, hphase⟩ := synthesize_phaseOf 3 terms o hsolvable hexact
  have hvalue : terms.phaseAt 2 = .turn 3 := by decide +kernel
  exact ⟨hsolvable, hexact, s, hs, hvalue ▸ hphase 2⟩

/-- **Linear part.** Whatever the angles are, the synthesized circuit computes
the map that was asked for, once its rows are put back in the order of the
wire permutation; without rewiring this order is the identity. -/
theorem synthesize_realizedMap (n : Nat) (terms : PhasePolynomial) (o : ParityOptions)
    (h : Solvable n terms o) :
    ∃ s, synthesize n terms o = .ok s ∧ s.circuit.realizedMap = .ok (transformOf n o) ∧
      (o.cnot.allowRewiring = false →
        s.circuit.rewiring = List.range n ∧ s.circuit.linearPart = .ok (transformOf n o)) := by
  obtain ⟨s, r, hs, hr, hwires, hrewiring, hgates⟩ := exists_synthesize h
  obtain ⟨hsize, hgoal, -⟩ := h.transformOf_invertible
  have hlinear : s.circuit.linearPart =
      .ok ⟨(r.rowOrder n).map (transformOf n o).row⟩ := by
    rw [PhaseStep.linearPart_eq h.width_le hwires hgates, PhaseStep.cnots_append,
      PhaseStep.cnots_map_cnot]
    show Except.ok (BinaryMatrix.mk (Cnot.run _ (PhaseStep.cnots (PhaseWalk.steps _ _ _) ++ _))) = _
    rw [PhaseWalk.cnots_steps, hr.run_units]
  refine ⟨s, hs, ?_, fun hfixed => ?_⟩
  · -- The wire permutation is the order in which the rows were gathered.
    unfold Circuit.realizedMap
    rw [hlinear, hrewiring]
    have hperm : IsRangePermutation (transformOf n o).size (r.rowOrder n) :=
      hsize.symm ▸ hr.isPermutation
    exact (BinaryMatrix.scatterRows_gathered hperm).trans
      (BinaryMatrix.ofRows_of_isSquare hgoal h.width_le)
  · have horder : r.rowOrder n = List.range n := by
      rw [Cnot.Recipe.rowOrder, hr.order_eq_none hfixed]
      rfl
    have hrows : (List.range n).map (transformOf n o).row = (transformOf n o).rows := by
      have hrange := BinaryMatrix.map_row_range (transformOf n o)
      rwa [hsize] at hrange
    rw [horder] at hrewiring
    rw [horder, hrows] at hlinear
    exact ⟨hrewiring, hlinear⟩

theorem synthesize_realizedMap_radians :
    let terms : PhasePolynomial := ⟨[(3, .radians 0.25), (6, .turn 1)], by decide⟩
    let o : ParityOptions := ⟨some ⟨[6, 3, 1]⟩, ⟨0, true, false⟩⟩
    Solvable 3 terms o ∧ ∃ s, synthesize 3 terms o = .ok s ∧
      s.circuit.realizedMap = .ok ⟨[6, 3, 1]⟩ ∧ s.circuit.linearPart = .ok ⟨[6, 3, 1]⟩ := by
  intro terms o
  have hsolvable : Solvable 3 terms o := by
    refine ⟨by decide, by decide, ?_, .inl rfl⟩
    rintro _ ⟨⟩
    exact ⟨⟨by decide, by decide⟩, rfl, by decide +kernel⟩
  obtain ⟨s, hs, hmap, hlinear⟩ := synthesize_realizedMap 3 terms o hsolvable
  exact ⟨hsolvable, s, hs, hmap, (hlinear rfl).2⟩

end ParityNetwork

end CircuitSynthesis
