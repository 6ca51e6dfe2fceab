import CircuitSynthesis.Proofs.BinaryMatrix.Algebra
import CircuitSynthesis.Proofs.Cnot.Embedding
import CircuitSynthesis.Proofs.History

/-!
# CNOT circuits realize their matrix

The rows of the matrix arrive on the placed wires in the order of the recipe,
each as a sum of what these wires carried before. The wire permutation takes
up that order on top of the one it held. So what a circuit realizes after
CNOTs were appended is the matrix, embedded in the identity on all wires,
times the linear part it had, under the wire permutation it had
(`appendTo_realizedMap`).
-/

namespace CircuitSynthesis

/-! ## The linear part -/

namespace Gate

variable {n : Nat} {rows rows' : List Nat}

theorem isSquare_addControl (h : IsSquare n rows) (control : Wire) (targets : List Wire) :
    IsSquare n (addControl control targets rows) := by
  have hparity : rows.getD control.index 0 < 2 ^ n := h.getD_lt _
  unfold addControl
  -- The parity is read before the first target changes, so it is a constant of the loop.
  generalize rows.getD control.index 0 = parity at hparity
  induction targets generalizing rows with
  | nil => exact h
  | cons w targets ih =>
    refine ih ⟨List.length_set.trans h.length_eq, fun row hrow => ?_⟩
    rcases List.mem_or_eq_of_mem_set hrow with hold | rfl
    · exact h.row_lt row hold
    · exact Nat.xor_lt_two_pow (h.getD_lt _) hparity

/-- A gate keeps the number of wires, and no parity reaches beyond them. -/
theorem isSquare_onParities {g : Gate} (h : IsSquare n rows) (hg : g.onParities rows = .ok rows') :
    IsSquare n rows' := by
  unfold onParities at hg
  split at hg
  · split at hg <;> cases hg
    exact isSquare_addControl h _ _
  · split at hg <;> cases hg
    exact isSquare_addControl h _ _
  · cases hg
    exact h.swapEntries _ _
  · split at hg <;> cases hg
    exact h

theorem isSquare_foldlM_onParities {gates : List Gate} (h : IsSquare n rows)
    (hgates : gates.foldlM onParities rows = .ok rows') : IsSquare n rows' := by
  induction gates generalizing rows with
  | nil =>
    cases hgates
    exact h
  | cons g gates ih =>
    rw [List.foldlM_cons] at hgates
    cases hg : g.onParities rows with
    | error e =>
      rw [hg] at hgates
      cases hgates
    | ok after =>
      rw [hg] at hgates
      exact ih (isSquare_onParities h hg) hgates

end Gate

namespace Circuit

variable {c : Circuit} {S : BinaryMatrix}

/-- The parities after all gates are accepted as the rows of a matrix. -/
theorem linearPart_of_foldlM {rows : List Nat} (hwidth : c.wireCount ≤ Bits.wordSize)
    (hrows : c.liveGates.foldlM Gate.onParities (Bits.units c.wireCount) = .ok rows) :
    c.linearPart = .ok ⟨rows⟩ := by
  unfold linearPart
  rw [admitQubits_of_le hwidth, hrows]
  exact BinaryMatrix.ofRows_of_isSquare
    (Gate.isSquare_foldlM_onParities (isSquare_units _) hrows) hwidth

theorem linearPart_eq_ok_iff : c.linearPart = .ok S ↔ c.wireCount ≤ Bits.wordSize ∧
    c.liveGates.foldlM Gate.onParities (Bits.units c.wireCount) = .ok S.rows := by
  constructor
  · intro h
    unfold linearPart at h
    cases hlimit : admitQubits Bits.wordSize c.wireCount with
    | error e =>
      rw [hlimit] at h
      cases h
    | ok u =>
      cases hrows : c.liveGates.foldlM Gate.onParities (Bits.units c.wireCount) with
      | error e =>
        rw [hlimit, hrows] at h
        cases h
      | ok rows =>
        rw [hlimit, hrows] at h
        obtain ⟨rfl, -⟩ := BinaryMatrix.ofRows_eq_ok_iff.mp h
        exact ⟨admitQubits_eq_ok_iff.mp hlimit, rfl⟩
  · rintro ⟨hwidth, hrows⟩
    exact linearPart_of_foldlM hwidth hrows

theorem isSquare_linearPart (h : c.linearPart = .ok S) : IsSquare c.wireCount S.rows :=
  Gate.isSquare_foldlM_onParities (isSquare_units _) (linearPart_eq_ok_iff.mp h).2

theorem size_of_linearPart (h : c.linearPart = .ok S) : S.size = c.wireCount :=
  (isSquare_linearPart h).length_eq

/-- A linear part is well formed, whatever the gates of the circuit. -/
theorem wellFormed_linearPart (h : c.linearPart = .ok S) : S.WellFormed :=
  BinaryMatrix.wellFormed_of_isSquare (isSquare_linearPart h) (linearPart_eq_ok_iff.mp h).1

theorem linearPart_ofQubits {n : Nat} (hn : n ≤ Bits.wordSize) :
    (ofQubits n).linearPart = .ok ⟨Bits.units n⟩ := by
  refine linearPart_eq_ok_iff.mpr ?_
  rw [ofQubits_wireCount, ofQubits_liveGates]
  exact ⟨hn, rfl⟩

end Circuit

namespace Cnot

variable {c : Circuit} {p : Placement} {m S : BinaryMatrix} {o : CnotOptions} {r : Recipe}

/-- The gates of a recipe act on what the circuit computed before. -/
theorem Recipe.Delivers.linearPart_placeOn (hr : r.Delivers m o) (hp : p.Fits c m.size)
    (hpositive : ∀ w ∈ p, w.polarity = .positive) (hS : c.linearPart = .ok S) :
    (r.placeOn c p).linearPart = .ok ⟨run S.rows (r.gates.map (relabel p))⟩ := by
  obtain ⟨hwidth, hrows⟩ := Circuit.linearPart_eq_ok_iff.mp hS
  have hcount : (r.placeOn c p).wireCount = c.wireCount := Circuit.foldl_place_wireCount _ _
  have hlive : (r.placeOn c p).liveGates = c.liveGates ++ r.gates.map (·.toGate p) :=
    Circuit.foldl_place_liveGates _ _
  refine Circuit.linearPart_eq_ok_iff.mpr ⟨by rw [hcount]; exact hwidth, ?_⟩
  rw [hcount, hlive, List.foldlM_append, hrows]
  exact foldlM_onParities_toGate hpositive (hp.length_eq ▸ hr.makes.wellFormed) S.rows

/-- A placed wire carries the row that the recipe puts there, made of what the
placed wires carried before. -/
theorem Recipe.Delivers.getD_run_relabel (hr : r.Delivers m o) (hp : p.Fits c m.size)
    {rows : List Nat} (hrows : rows.length = c.wireCount) {i : Nat} (hi : i < m.size) :
    (run rows (r.gates.map (relabel p))).getD (p.wire i).index 0 =
      combination (p.gather rows) (m.row ((r.rowOrder m.size).getD i 0)) := by
  have horder : i < (r.rowOrder m.size).length := by rw [hr.isPermutation.length_eq]; exact hi
  rw [← hp.getD_gather _ hi, gather_run_relabel hp hrows hr.makes.wellFormed,
    run_eq_map_combination (hp.length_gather rows) hr.makes.wellFormed, getD_map_combination,
    hr.makes.run_units]
  simp [horder]

/-! ## The wire permutation -/

/-- A placed wire takes over the entry of the wire whose row it carries. -/
theorem Recipe.Delivers.rewiring_placeOn (hr : r.Delivers m o) (hp : p.Fits c m.size)
    (hrewiring : IsRangePermutation c.wireCount c.rewiring) :
    IsRangePermutation c.wireCount (r.placeOn c p).rewiring ∧
      (∀ i < m.size, (r.placeOn c p).rewiring.getD (p.wire i).index 0 =
        c.rewiring.getD (p.wire ((r.rowOrder m.size).getD i 0)).index 0) ∧
      ∀ v, v ∉ p.map Wire.index →
        (r.placeOn c p).rewiring.getD v 0 = c.rewiring.getD v 0 := by
  have hperm := hr.isPermutation
  have hplaced := hp.length_eq
  unfold Recipe.placeOn
  unfold Recipe.rowOrder at hperm ⊢
  cases horder : r.order with
  | none => exact ⟨hrewiring, fun i hi => by simp [hi], fun _ _ => rfl⟩
  | some order =>
    rw [horder, Option.getD_some] at hperm
    have hordered := hperm.length_eq
    have hfst : (orderWrites c.rewiring p order).map Prod.fst = p.map Wire.index :=
      map_fst_orderWrites c.rewiring (by omega)
    refine ⟨isRangePermutation_composeOrder hp hrewiring hperm, fun i hi => ?_, fun v hv => ?_⟩
    · have hwrite := mem_orderWrites c.rewiring (show i < p.length by omega)
        (show i < order.length by omega)
      have hindex : (p.wire i).index < c.rewiring.length := by
        rw [hrewiring.length_eq]
        exact hp.index_lt (Placement.wire_mem (by omega))
      show (composeOrder c.rewiring p order).getD _ _ = _
      rw [composeOrder_eq_foldl, List.getD_eq_getElem?_getD,
        getElem?_foldl_set_of_mem (by rw [hfst]; exact hp.nodup_indices) hindex hwrite]
      rfl
    · show (composeOrder c.rewiring p order).getD _ _ = _
      rw [composeOrder_eq_foldl, List.getD_eq_getElem?_getD,
        getElem?_foldl_set_of_notMem (by rw [hfst]; exact hv), ← List.getD_eq_getElem?_getD]

/-! ## The round trip -/

/-- A recipe realizes the embedded matrix on top of what was realized before. -/
theorem Recipe.Delivers.realizedMap_placeOn (hr : r.Delivers m o) (hp : p.Fits c m.size)
    (hpositive : ∀ w ∈ p, w.polarity = .positive)
    (hrewiring : IsRangePermutation c.wireCount c.rewiring) (hS : c.linearPart = .ok S) :
    ∃ P M, (m.onWires p c.wireCount).mul S = .ok P ∧ P.scatterRows c.rewiring = .ok M ∧
      (r.placeOn c p).realizedMap = .ok M := by
  have hsize := Circuit.size_of_linearPart hS
  obtain ⟨P, hmul, hP, hplaced, hothers⟩ := BinaryMatrix.onWires_mul hp hsize
  have hwf : P.WellFormed := (Circuit.wellFormed_linearPart hS).mul hmul
  obtain ⟨M, hscatter, hM, hsizeM, hrow⟩ := hwf.exists_scatterRows (hP ▸ hrewiring)
  rw [hP] at hsizeM hrow
  obtain ⟨hperm, hentry, hsame⟩ := hr.rewiring_placeOn hp hrewiring
  -- The rows that arrive are those of `M`, gathered in the new permutation.
  have hgathered : run S.rows (r.gates.map (relabel p)) = (r.placeOn c p).rewiring.map M.row := by
    apply eq_of_getD_eq
    · rw [length_run, List.length_map, hperm.length_eq]
      exact hsize
    · intro v hv
      rw [length_run] at hv
      have hv : v < c.wireCount := hsize ▸ hv
      have hget : ((r.placeOn c p).rewiring.map M.row).getD v 0 =
          M.row ((r.placeOn c p).rewiring.getD v 0) := by
        have hlt : v < (r.placeOn c p).rewiring.length := by rw [hperm.length_eq]; exact hv
        simp [hlt]
      rw [hget]
      by_cases hmem : v ∈ p.map Wire.index
      · obtain ⟨w, hw, rfl⟩ := List.mem_map.mp hmem
        obtain ⟨i, hi, rfl⟩ := List.getElem_of_mem hw
        have hi' : i < m.size := by rw [← hp.length_eq]; exact hi
        have hsource := hr.isPermutation.getD_lt hi'
        have hindex := hp.index_lt (Placement.wire_mem (by rw [hp.length_eq]; exact hsource))
        rw [← Placement.wire_eq_getElem hi, hentry i hi', hrow _ hindex, hplaced _ hsource,
          hr.getD_run_relabel hp hsize hi']
      · rw [hsame v hmem, hrow v hv, hothers v hv hmem,
          getD_run_relabel_of_notMem hp hsize hr.makes.wellFormed hmem]
        rfl
  refine ⟨P, M, hmul, hscatter, ?_⟩
  unfold Circuit.realizedMap
  rw [hr.linearPart_placeOn hp hpositive hS, hgathered]
  exact (BinaryMatrix.scatterRows_gathered (hsizeM.symm ▸ hperm)).trans
    (BinaryMatrix.ofRows_eq_ok_iff.mpr ⟨rfl, hM⟩)

/-- On qubits of its own, a matrix embedded in the identity is itself. -/
theorem onWires_ofQubits_mul {P : BinaryMatrix} (hm : m.WellFormed)
    (h : (m.onWires ((List.range m.size).map Wire.qubit) m.size).mul ⟨Bits.units m.size⟩ = .ok P) :
    P = m := by
  have hcount := Circuit.ofQubits_wireCount m.size
  have hfits := Circuit.fits_ofQubits m.size
  rw [Circuit.ofQubits_qubits] at hfits
  obtain ⟨P', hP', hsize, hrows, -⟩ := BinaryMatrix.onWires_mul (S := ⟨Bits.units m.size⟩) hfits
    (by rw [hcount]; exact Bits.length_units m.size)
  rw [hcount] at hP' hsize
  rw [hP'] at h
  cases h
  have hgather : Placement.gather ((List.range m.size).map Wire.qubit) (Bits.units m.size) =
      Bits.units m.size := by
    rw [Placement.gather, List.map_map, Bits.units]
    refine List.map_congr_left fun i hi => ?_
    exact getD_units (List.mem_range.mp hi)
  have heq : P.rows = m.rows := by
    apply eq_of_getD_eq hsize
    intro i hi
    have hrow := hrows i (hsize ▸ hi)
    rw [Circuit.wire_ofQubits, hgather] at hrow
    exact hrow.trans (combination_units (hm.isSquare.getD_lt i))
  cases P
  cases m
  exact congrArg BinaryMatrix.mk heq

/-- On qubits of its own, a recipe realizes its matrix. -/
theorem Recipe.Delivers.realizedMap_ofQubits (hr : r.Delivers m o) (hm : m.WellFormed) :
    (r.placeOn (Circuit.ofQubits m.size) (Circuit.ofQubits m.size).qubits).realizedMap = .ok m := by
  have hpositive : ∀ w ∈ (Circuit.ofQubits m.size).qubits, w.polarity = .positive := by
    rw [Circuit.ofQubits_qubits]
    exact List.forall_mem_map.mpr fun _ _ => rfl
  obtain ⟨P, M, hmul, hscatter, hmap⟩ := hr.realizedMap_placeOn (Circuit.fits_ofQubits m.size)
    hpositive (Circuit.isRangePermutation_rewiring_ofQubits m.size)
    (Circuit.linearPart_ofQubits hm.size_le)
  rw [Circuit.ofQubits_qubits, Circuit.ofQubits_wireCount] at hmul
  -- The wires are not permuted before.
  have hidentity : m.scatterRows (List.range m.size) = .ok m := by
    have hgathered := BinaryMatrix.scatterRows_gathered (isRangePermutation_range m.size)
    rwa [BinaryMatrix.map_row_range, BinaryMatrix.ofRows_eq_ok_iff.mpr ⟨rfl, hm⟩] at hgathered
  rw [onWires_ofQubits_mul hm hmul, Circuit.ofQubits_rewiring, hidentity] at hscatter
  cases hscatter
  exact hmap

/-- **Round trip.** CNOTs for an invertible matrix can be appended on any
distinct qubits of a reachable circuit whose linear part is known. The circuit
then realizes the matrix, embedded in the identity on all wires, after its old
linear part, under its old wire permutation; on a circuit of its own it
realizes the matrix. All this holds with and without rewiring. -/
theorem appendTo_realizedMap (m : BinaryMatrix) (o : CnotOptions) (hm : m.WellFormed)
    (hinvertible : IsUnit (rowMatrix m.size m.rows))
    (husable : o.searchPartition = true ∨ 1 ≤ o.partitionSize) :
    (∀ (c : Circuit) (S : BinaryMatrix) (p : Placement), c.Reachable → c.linearPart = .ok S →
      p.Fits c m.size → (∀ w ∈ p, w.polarity = .positive) →
      ∃ s P M, appendTo c p m o = .ok s ∧ (m.onWires p c.wireCount).mul S = .ok P ∧
        P.scatterRows c.rewiring = .ok M ∧ s.circuit.realizedMap = .ok M) ∧
    ∃ s, synthesize m o = .ok s ∧ s.circuit.realizedMap = .ok m := by
  have ho : o.isUsable = true := CnotOptions.isUsable_iff.mpr husable
  constructor
  · intro c S p hc hS hp hpositive
    have hrewiring := hc.sound.rewiring_perm
    obtain ⟨r, events, hr, happend⟩ := appendTo_eq_ok hp hrewiring hm hinvertible ho
    obtain ⟨P, M, hmul, hscatter, hmap⟩ := hr.realizedMap_placeOn hp hpositive hrewiring hS
    exact ⟨_, P, M, happend, hmul, hscatter, hmap⟩
  · obtain ⟨r, events, hr, happend⟩ := appendTo_eq_ok (Circuit.fits_ofQubits m.size)
      (Circuit.isRangePermutation_rewiring_ofQubits m.size) hm hinvertible ho
    exact ⟨_, happend, hr.realizedMap_ofQubits hm⟩

/-- Four qubits with a CNOT, under a wire permutation that is not its own
inverse. -/
def fourQubits : Circuit := Circuit.ofHistory [.addWire .qubit, .addWire .qubit, .addWire .qubit,
  .addWire .qubit, .append (.cx (.qubit 0) (.qubit 3)), .rewire [1, 2, 0, 3]]

/-- Three of the qubits in another order, for a matrix whose rows have to be
reordered. -/
theorem appendTo_realizedMap_fourQubits :
    fourQubits.Reachable ∧ fourQubits.linearPart = .ok ⟨[1, 2, 4, 9]⟩ ∧
      Placement.Fits fourQubits [.qubit 2, .qubit 0, .qubit 3] 3 ∧
      IsUnit (rowMatrix 3 [6, 4, 1]) ∧
      ∃ s, appendTo fourQubits [.qubit 2, .qubit 0, .qubit 3] ⟨[6, 4, 1]⟩ ⟨2, false, true⟩ = .ok s ∧
        s.circuit.realizedMap = .ok ⟨[8, 9, 2, 4]⟩ := by
  have hc : fourQubits.Reachable := ⟨_, rfl⟩
  have hlinear : fourQubits.linearPart = .ok ⟨[1, 2, 4, 9]⟩ := rfl
  have hp : Placement.Fits fourQubits [.qubit 2, .qubit 0, .qubit 3] 3 :=
    Placement.check_eq_ok_iff.mp rfl
  have hunit : IsUnit (rowMatrix 3 [6, 4, 1]) :=
    isInvertible_iff_isUnit (m := ⟨[6, 4, 1]⟩) |>.mp (by decide +kernel)
  obtain ⟨happend, -⟩ := appendTo_realizedMap ⟨[6, 4, 1]⟩ ⟨2, false, true⟩ ⟨by decide, by decide⟩
    hunit (.inr (by decide))
  obtain ⟨s, P, M, hs, hmul, hscatter, hmap⟩ := happend fourQubits _ _ hc hlinear hp (by decide)
  cases hmul
  cases hscatter
  exact ⟨hc, hlinear, hp, hunit, s, hs, hmap⟩

end Cnot

end CircuitSynthesis
