import CircuitSynthesis.Proofs.Edit
import CircuitSynthesis.Proofs.Staircase.Walk

/-!
# Staircases realize phases and nothing else

On an accepted placement a staircase is appended as a whole. On a circuit of
its own it computes the identity, and every basis state picks up the phase of
the polynomial, in whichever order the parities are visited.
-/

namespace CircuitSynthesis.Staircase

/-- The width is supported and the masks fit it. -/
structure Solvable (n : Nat) (terms : PhasePolynomial) : Prop where
  width_le : n ≤ maxWidth
  masks_fit : ∀ mask ∈ terms.masks, mask ≠ 0 ∧ mask < 2 ^ n

variable {n : Nat} {terms : PhasePolynomial}

/-! ## The steps -/

/-- The staircase with the turns of a polynomial; nothing without terms. -/
def walk (order : WalkOrder) (n : Nat) (terms : PhasePolynomial) : List PhaseStep :=
  if terms.isEmpty then [] else PhaseWalk.steps n terms (gates order n)

theorem wellFormed_walk (order : WalkOrder) (n : Nat) (terms : PhasePolynomial) :
    ∀ s ∈ walk order n terms, s.WellFormed n := by
  intro s hs
  unfold walk at hs
  split at hs
  · cases hs
  · exact PhaseWalk.wellFormed_steps terms (wellFormed_gates order n) s hs

theorem run_cnots_walk (order : WalkOrder) (n : Nat) (terms : PhasePolynomial) :
    Cnot.run (Bits.units n) (PhaseStep.cnots (walk order n terms)) = Bits.units n := by
  unfold walk
  split
  · rfl
  · rw [PhaseWalk.cnots_steps, run_gates]

/-- Every nonzero term is turned once, at its parity. -/
theorem turns_walk_perm (order : WalkOrder) (h : Solvable n terms) :
    (PhaseStep.turns (Bits.units n) (walk order n terms)).Perm terms.nonzero.terms := by
  unfold walk
  split
  · next hempty =>
    have hterms : terms.terms = [] := by simpa [PhasePolynomial.isEmpty] using hempty
    have hnonzero : terms.nonzero.terms = [] := by
      simp [PhasePolynomial.nonzero, PhasePolynomial.filter, hterms]
    rw [hnonzero]
    exact .refl _
  · refine PhaseWalk.turns_steps_perm fun mask hmask => ?_
    obtain ⟨hne, hlt⟩ := h.masks_fit mask (PhasePolynomial.mem_masks_of_nonzero hmask)
    exact unit_or_reached order hne hlt

/-! ## Appending -/

theorem edit_eq_ok {c : Circuit} {p : Placement} (order : WalkOrder) (h : Solvable n terms)
    (hp : p.Fits c n) :
    ∃ events, edit p terms order c =
      .ok events (((walk order n terms).map (·.toGate p)).foldl Circuit.place c) := by
  have hadmits : ∀ g ∈ (walk order n terms).map (·.toGate p), c.Admits g :=
    List.forall_mem_map.mpr fun s hs =>
      PhaseStep.admits_toGate hp (wellFormed_walk order n terms s hs)
  have hemit := Edit.emitAll_of_admits hadmits
  unfold walk at hemit ⊢
  unfold edit
  simp only [hp.length_eq]
  rw [lift_bind_ok (admitQubits_of_le h.width_le), get_bind,
    lift_bind_ok (Placement.check_eq_ok_iff.mpr hp),
    lift_bind_ok (PhasePolynomial.validate_eq_ok_iff.mpr h.masks_fit)]
  by_cases hempty : terms.isEmpty = true
  · simp only [if_pos hempty]
    exact ⟨_, rfl⟩
  · simp only [if_neg hempty] at hemit ⊢
    rw [bind_ok hemit]
    exact ⟨_, rfl⟩

theorem synthesize_eq_ok (order : WalkOrder) (h : Solvable n terms) :
    ∃ events, synthesize n terms order = .ok
      ⟨((walk order n terms).map (·.toGate (Circuit.ofQubits n).qubits)).foldl Circuit.place
        (Circuit.ofQubits n), events⟩ := by
  obtain ⟨events, hedit⟩ := edit_eq_ok order h (Circuit.fits_ofQubits n)
  refine ⟨events, ?_⟩
  unfold synthesize appendTo Edit.apply
  rw [admitQubits_of_le h.width_le]
  simp only [hedit, bind, Except.bind]

/-- On a circuit of its own, the gates are the steps of the staircase. -/
theorem exists_synthesize (order : WalkOrder) (h : Solvable n terms) :
    ∃ s, synthesize n terms order = .ok s ∧ s.circuit.wireCount = n ∧
      s.circuit.liveGates = (walk order n terms).map
        (PhaseStep.toGate ((List.range n).map Wire.qubit)) := by
  obtain ⟨events, hsynthesize⟩ := synthesize_eq_ok order h
  refine ⟨_, hsynthesize, ?_, ?_⟩
  · rw [Circuit.foldl_place_wireCount, Circuit.ofQubits_wireCount]
  · rw [Circuit.foldl_place_liveGates, Circuit.ofQubits_liveGates, List.nil_append,
      Circuit.ofQubits_qubits]

/-! ## The round trip -/

theorem Solvable.width_le_wordSize (h : Solvable n terms) : n ≤ Bits.wordSize :=
  Nat.le_trans h.width_le (by decide)

/-- **Round trip.** With exact angles and in both orders, synthesis gives a
circuit that computes the identity and on which every basis state picks up the
phase of the polynomial. The order therefore makes no difference to phases. -/
theorem synthesize_identity_phaseOf (n : Nat) (terms : PhasePolynomial) (h : Solvable n terms)
    (hexact : ∀ t ∈ terms.terms, t.2.isExact = true) :
    (∀ order, ∃ s m, synthesize n terms order = .ok s ∧
      BinaryMatrix.identity n = .ok m ∧ s.circuit.linearPart = .ok m ∧
      ∀ x, s.circuit.phaseOf x = .ok (terms.phaseAt x)) ∧
    ∀ s s', synthesize n terms .gray = .ok s → synthesize n terms .binary = .ok s' →
      ∀ x, s.circuit.phaseOf x = s'.circuit.phaseOf x := by
  have hround : ∀ order, ∃ s, synthesize n terms order = .ok s ∧
      s.circuit.linearPart = .ok ⟨Bits.units n⟩ ∧
      ∀ x, s.circuit.phaseOf x = .ok (terms.phaseAt x) := by
    intro order
    obtain ⟨s, hs, hwires, hgates⟩ := exists_synthesize order h
    refine ⟨s, hs, ?_, fun x => ?_⟩
    · rw [PhaseStep.linearPart_eq h.width_le_wordSize hwires hgates, run_cnots_walk]
    · rw [PhaseStep.phaseOf_eq h.width_le_wordSize hwires (wellFormed_walk order n terms) hgates,
        PhasePolynomial.sum_picked_eq_phaseAt (turns_walk_perm order h) hexact]
  constructor
  · intro order
    obtain ⟨s, hs, hlinear, hphase⟩ := hround order
    refine ⟨s, ⟨Bits.units n⟩, hs, ?_, hlinear, hphase⟩
    unfold BinaryMatrix.identity
    rw [admitQubits_of_le (show n ≤ BinaryMatrix.maxSize from h.width_le_wordSize)]
    rfl
  · intro s s' hgray hbinary x
    obtain ⟨t, ht, -, hphase⟩ := hround .gray
    obtain ⟨t', ht', -, hphase'⟩ := hround .binary
    rw [ht] at hgray
    rw [ht'] at hbinary
    cases hgray
    cases hbinary
    rw [hphase, hphase']

/-- Four terms on three qubits, one of them on a single qubit. -/
theorem synthesize_identity_phaseOf_three_qubits :
    let terms : PhasePolynomial :=
      ⟨[(2, .turn 1), (3, .turn 1), (5, .turn 3), (7, .turn 2)], by decide⟩
    Solvable 3 terms ∧ (∀ t ∈ terms.terms, t.2.isExact = true) ∧
      ∃ s s', synthesize 3 terms .gray = .ok s ∧ synthesize 3 terms .binary = .ok s' ∧
        s.circuit.linearPart = .ok ⟨[1, 2, 4]⟩ ∧ s'.circuit.linearPart = .ok ⟨[1, 2, 4]⟩ ∧
        s.circuit.phaseOf 6 = .ok (.turn 5) ∧ s'.circuit.phaseOf 6 = .ok (.turn 5) := by
  intro terms
  have hsolvable : Solvable 3 terms := ⟨by decide, by decide⟩
  have hexact : ∀ t ∈ terms.terms, t.2.isExact = true := by simp [terms, Angle.isExact]
  obtain ⟨hround, -⟩ := synthesize_identity_phaseOf 3 terms hsolvable hexact
  obtain ⟨s, m, hs, hm, hlinear, hphase⟩ := hround .gray
  obtain ⟨s', m', hs', hm', hlinear', hphase'⟩ := hround .binary
  have hidentity : BinaryMatrix.identity 3 = .ok ⟨[1, 2, 4]⟩ := by rfl
  have hvalue : terms.phaseAt 6 = .turn 5 := by decide +kernel
  cases hidentity.symm.trans hm
  cases hidentity.symm.trans hm'
  exact ⟨hsolvable, hexact, s, s', hs, hs', hlinear, hlinear', hvalue ▸ hphase 6,
    hvalue ▸ hphase' 6⟩

end CircuitSynthesis.Staircase
