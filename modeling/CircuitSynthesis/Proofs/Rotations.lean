import CircuitSynthesis.Proofs.ParityNetwork.RoundTrip
import CircuitSynthesis.Proofs.Staircase.RoundTrip

/-!
# Rotations of synthesized circuits

Both engines for phase polynomials leave circuits of CNOTs and rotations about
the z axis. The rotations and the nonzero terms of the polynomial correspond to
one another, one to one, whatever the angles are (`synthesize_rotatesOnce`): the
rotation for a term acts on a wire that carries the parity of the term at that
moment. The steps of a walk turn each term once, so it remains to find the
place of each turn (`PhaseStep.existsUnique_isTurn`).
-/

namespace CircuitSynthesis

theorem PhasePolynomial.mem_nonzero {p : PhasePolynomial} {t : Nat × Angle} :
    t ∈ p.nonzero.terms ↔ t ∈ p.terms ∧ t.2.isZero = false := by
  simp [nonzero, filter]

/-! ## The places of turns -/

namespace PhaseStep

/-- Step `k` turns a qubit by the angle of a term, when the qubit carries the
parity of the term. -/
def IsTurn (parities : List Nat) (steps : List PhaseStep) (k : Nat) (t : Nat × Angle) : Prop :=
  ∃ qubit, steps[k]? = some (.turn t.2 qubit) ∧
    (Cnot.run parities (cnots (steps.take k))).getD qubit 0 = t.1

variable {parities : List Nat} {s : PhaseStep} {steps rest : List PhaseStep} {k : Nat}
  {t : Nat × Angle}

theorem isTurn_zero :
    IsTurn parities (s :: rest) 0 t ↔
      ∃ qubit, s = .turn t.2 qubit ∧ parities.getD qubit 0 = t.1 := by
  simp [IsTurn, cnots]

theorem isTurn_succ :
    IsTurn parities (s :: rest) (k + 1) t ↔
      IsTurn (Cnot.run parities (cnots [s])) rest k t := by
  unfold IsTurn
  rw [List.take_succ_cons, ← Cnot.run_append, ← cnots_append]
  rfl

theorem IsTurn.mem_turns (h : IsTurn parities steps k t) : t ∈ turns parities steps := by
  induction steps generalizing parities k with
  | nil =>
    obtain ⟨qubit, hnone, -⟩ := h
    cases hnone
  | cons s rest ih =>
    cases k with
    | zero =>
      obtain ⟨qubit, rfl, hcarried⟩ := isTurn_zero.mp h
      rw [turns, hcarried]
      exact List.mem_cons_self
    | succ k =>
      have hrest := ih (isTurn_succ.mp h)
      cases s with
      | cnot g => exact hrest
      | turn angle qubit => exact List.mem_cons_of_mem _ hrest

/-- A step turns one term at most. -/
theorem IsTurn.unique {t' : Nat × Angle} (h : IsTurn parities steps k t)
    (h' : IsTurn parities steps k t') : t = t' := by
  obtain ⟨qubit, hstep, hcarried⟩ := h
  obtain ⟨qubit', hstep', hcarried'⟩ := h'
  rw [hstep] at hstep'
  obtain ⟨hangle, rfl⟩ := PhaseStep.turn.inj (Option.some.inj hstep')
  exact Prod.ext (hcarried.symm.trans hcarried') hangle

/-- If no two turns are alike, each of them has one place. -/
theorem existsUnique_isTurn (hnodup : (turns parities steps).Nodup)
    (ht : t ∈ turns parities steps) : ∃! k, IsTurn parities steps k t := by
  induction steps generalizing parities with
  | nil => cases ht
  | cons s rest ih =>
    -- A place in the rest is the only one, unless the first step is the same turn.
    have hlater : (turns (Cnot.run parities (cnots [s])) rest).Nodup →
        t ∈ turns (Cnot.run parities (cnots [s])) rest → ¬IsTurn parities (s :: rest) 0 t →
        ∃! k, IsTurn parities (s :: rest) k t := by
      intro hrest hmem hfirst
      obtain ⟨k, hk, hunique⟩ := ih hrest hmem
      refine ⟨k + 1, isTurn_succ.mpr hk, fun k' hk' => ?_⟩
      cases k' with
      | zero => exact absurd hk' hfirst
      | succ k' => rw [hunique k' (isTurn_succ.mp hk')]
    cases s with
    | cnot g =>
      refine hlater hnodup ht fun hfirst => ?_
      obtain ⟨qubit, hturn, -⟩ := isTurn_zero.mp hfirst
      cases hturn
    | turn angle qubit =>
      obtain ⟨hnew, hrest⟩ := List.nodup_cons.mp hnodup
      rcases List.mem_cons.mp ht with rfl | hmem
      · refine ⟨0, isTurn_zero.mpr ⟨qubit, rfl, rfl⟩, fun k hk => ?_⟩
        cases k with
        | zero => rfl
        | succ k => exact absurd (isTurn_succ.mp hk).mem_turns hnew
      · refine hlater hrest hmem fun hfirst => hnew ?_
        obtain ⟨qubit', hturn, hcarried⟩ := isTurn_zero.mp hfirst
        obtain ⟨hangle, rfl⟩ := PhaseStep.turn.inj hturn
        rw [hangle, hcarried]
        exact hmem

theorem toGate_cnot_ofQubits (n : Nat) (g : Cnot) :
    toGate ((List.range n).map Wire.qubit) (.cnot g) =
      .cx (.qubit g.control) (.qubit g.target) := by
  rw [toGate, Cnot.toGate, Circuit.wire_ofQubits, Circuit.wire_ofQubits]

theorem toGate_turn_ofQubits (n : Nat) (angle : Angle) (qubit : Nat) :
    toGate ((List.range n).map Wire.qubit) (.turn angle qubit) =
      .rotationZ angle (.qubit qubit) := by
  rw [toGate, Circuit.wire_ofQubits]

end PhaseStep

/-! ## Rotations -/

namespace Circuit

open PhaseStep

/-- Gate `k` rotates a wire by the angle of a term, when the gates before it
have left the parity of the term on the wire. -/
def RotatesAt (c : Circuit) (k : Nat) (t : Nat × Angle) : Prop :=
  ∃ w parities, c.liveGates[k]? = some (.rotationZ t.2 w) ∧
    (c.liveGates.take k).foldlM Gate.onParities (Bits.units c.wireCount) = .ok parities ∧
    parities[w.index]? = some t.1

/-- The rotations of the circuit correspond to the nonzero terms, and all other
gates are CNOTs. -/
structure RotatesOnce (c : Circuit) (terms : PhasePolynomial) : Prop where
  once : ∀ t ∈ terms.terms, t.2.isZero = false → ∃! k, c.RotatesAt k t
  /-- A gate is a CNOT of two different qubits, or the rotation of one term. -/
  cx_or_rotation : ∀ k g, c.liveGates[k]? = some g →
    (∃ i j, i < c.wireCount ∧ j < c.wireCount ∧ i ≠ j ∧ g = .cx (.qubit i) (.qubit j)) ∨
      ∃! t, (t ∈ terms.terms ∧ t.2.isZero = false) ∧ c.RotatesAt k t

variable {c : Circuit} {n : Nat} {terms : PhasePolynomial} {steps : List PhaseStep}

/-- On the qubits of a circuit the rotations are the turns. -/
theorem rotatesAt_iff (hwires : c.wireCount = n) (hsteps : ∀ s ∈ steps, s.WellFormed n)
    (hgates : c.liveGates = steps.map (toGate ((List.range n).map Wire.qubit))) {k : Nat}
    {t : Nat × Angle} : c.RotatesAt k t ↔ IsTurn (Bits.units n) steps k t := by
  unfold RotatesAt
  rw [hgates, hwires, ← List.map_take, foldlM_onParities, List.getElem?_map]
  constructor
  · rintro ⟨w, parities, hgate, hrun, hcarried⟩
    obtain ⟨s, hs, hgate⟩ := Option.map_eq_some_iff.mp hgate
    cases hrun
    cases s with
    | cnot g => cases congrArg Gate.operation hgate
    | turn angle qubit =>
      rw [toGate_turn_ofQubits] at hgate
      obtain ⟨hoperation, -, htargets⟩ := Gate.mk.inj hgate
      obtain ⟨-, rfl⟩ := Operation.rotation.inj hoperation
      obtain ⟨rfl, -⟩ := List.cons.inj htargets
      refine ⟨qubit, hs, ?_⟩
      rw [List.getD_eq_getElem?_getD]
      exact congrArg (Option.getD · 0) hcarried
  · rintro ⟨qubit, hs, hcarried⟩
    have hqubit : qubit < n := hsteps _ (List.mem_of_getElem? hs)
    refine ⟨.qubit qubit, _, ?_, rfl, ?_⟩
    · rw [hs, Option.map_some, toGate_turn_ofQubits]
    · have hlt : qubit < (Cnot.run (Bits.units n) (cnots (steps.take k))).length := by
        rw [Cnot.length_run, Bits.length_units]
        exact hqubit
      rw [List.getD_eq_getElem _ _ hlt] at hcarried
      rw [Wire.index_qubit, List.getElem?_eq_getElem hlt, hcarried]

/-- Steps that turn each nonzero term once make a circuit with one rotation for
each of them. -/
theorem rotatesOnce_of_turns (hwires : c.wireCount = n) (hsteps : ∀ s ∈ steps, s.WellFormed n)
    (hgates : c.liveGates = steps.map (toGate ((List.range n).map Wire.qubit)))
    (hturns : (turns (Bits.units n) steps).Perm terms.nonzero.terms) : c.RotatesOnce terms := by
  have hiff : ∀ k t, c.RotatesAt k t ↔ IsTurn (Bits.units n) steps k t := fun k t =>
    rotatesAt_iff hwires hsteps hgates
  refine ⟨fun t ht hangle => ?_, fun k g hg => ?_⟩
  · have hmem : t ∈ turns (Bits.units n) steps :=
      hturns.mem_iff.mpr (PhasePolynomial.mem_nonzero.mpr ⟨ht, hangle⟩)
    simp only [hiff]
    exact existsUnique_isTurn (hturns.nodup_iff.mpr terms.nonzero.nodup_terms) hmem
  · rw [hgates, List.getElem?_map] at hg
    obtain ⟨s, hs, rfl⟩ := Option.map_eq_some_iff.mp hg
    have hwf := hsteps s (List.mem_of_getElem? hs)
    cases s with
    | cnot g =>
      refine .inl ⟨g.control, g.target, ?_, ?_, hwf.ne, toGate_cnot_ofQubits n g⟩
      · rw [hwires]
        exact hwf.control_lt
      · rw [hwires]
        exact hwf.target_lt
    | turn angle qubit =>
      have hturn : IsTurn (Bits.units n) steps k (_, angle) := ⟨qubit, hs, rfl⟩
      refine .inr ⟨_, ⟨PhasePolynomial.mem_nonzero.mp (hturns.mem_iff.mp hturn.mem_turns),
        (hiff k _).mpr hturn⟩, ?_⟩
      rintro t' ⟨-, hrotates⟩
      exact ((hiff k t').mp hrotates).unique hturn

end Circuit

/-! ## Both engines -/

open PhaseStep

/-- A network and the recipe that completes it turn each nonzero term once. -/
theorem ParityNetwork.exists_rotatesOnce {n : Nat} {terms : PhasePolynomial} {o : ParityOptions}
    (h : Solvable n terms o) :
    ∃ s, synthesize n terms o = .ok s ∧ s.circuit.wireCount = n ∧
      s.circuit.RotatesOnce terms := by
  obtain ⟨s, r, hs, hr, hwires, -, hgates⟩ := exists_synthesize h
  refine ⟨s, hs, hwires, Circuit.rotatesOnce_of_turns hwires ?_ hgates ?_⟩
  · intro step hstep
    rcases List.mem_append.mp hstep with hstep | hstep
    · exact h.wellFormed_walk step hstep
    · obtain ⟨g, hg, rfl⟩ := List.mem_map.mp hstep
      exact hr.wellFormed g hg
  · rw [turns_append, turns_map_cnot, List.append_nil]
    exact PhaseWalk.turns_steps_perm fun mask hmask => unit_or_reached h.nonzero_masks_fit hmask

/-- **Rotations.** Whatever the angles are, and with all options and orders, the
synthesized circuit has exactly one rotation for each term whose angle is not
zero, at a moment when its wire carries the parity of the term, and besides
these rotations nothing but CNOTs. -/
theorem synthesize_rotatesOnce (n : Nat) (terms : PhasePolynomial) :
    (∀ o, ParityNetwork.Solvable n terms o →
      ∃ s, ParityNetwork.synthesize n terms o = .ok s ∧ s.circuit.wireCount = n ∧
        s.circuit.RotatesOnce terms) ∧
    (Staircase.Solvable n terms → ∀ order,
      ∃ s, Staircase.synthesize n terms order = .ok s ∧ s.circuit.wireCount = n ∧
        s.circuit.RotatesOnce terms) := by
  refine ⟨fun o h => ParityNetwork.exists_rotatesOnce h, fun h order => ?_⟩
  obtain ⟨s, hs, hwires, hgates⟩ := Staircase.exists_synthesize order h
  exact ⟨s, hs, hwires, Circuit.rotatesOnce_of_turns hwires
    (Staircase.wellFormed_walk order n terms) hgates (Staircase.turns_walk_perm order h)⟩

/-- Exact angles and radians on three qubits, the same angle at two parities,
and a term of angle zero. -/
theorem synthesize_rotatesOnce_mixed :
    let terms : PhasePolynomial := ⟨[(1, .turn 1), (3, .radians 0.25), (5, .turn 0),
      (6, .turn 3), (7, .radians 0.25)], by decide⟩
    let o : ParityOptions := ⟨some ⟨[6, 3, 1]⟩, ⟨2, false, true⟩⟩
    ParityNetwork.Solvable 3 terms o ∧ Staircase.Solvable 3 terms ∧
      (∃ s, ParityNetwork.synthesize 3 terms o = .ok s ∧
        ∃! k, s.circuit.RotatesAt k (7, .radians 0.25)) ∧
      ∃ s, Staircase.synthesize 3 terms .binary = .ok s ∧
        ∃! k, s.circuit.RotatesAt k (7, .radians 0.25) := by
  intro terms o
  have hnetwork : ParityNetwork.Solvable 3 terms o := by
    refine ⟨by decide, by decide, ?_, .inr (by decide)⟩
    rintro _ ⟨⟩
    exact ⟨⟨by decide, by decide⟩, rfl, by decide +kernel⟩
  have hstaircase : Staircase.Solvable 3 terms := ⟨by decide, by decide⟩
  have hmem : (7, .radians 0.25) ∈ terms.terms := by simp [terms]
  have hangle : Angle.isZero (.radians 0.25) = false := by decide
  obtain ⟨hparities, hstairs⟩ := synthesize_rotatesOnce 3 terms
  obtain ⟨s, hs, -, hrotates⟩ := hparities o hnetwork
  obtain ⟨s', hs', -, hrotates'⟩ := hstairs hstaircase .binary
  exact ⟨hnetwork, hstaircase, ⟨s, hs, hrotates.once _ hmem hangle⟩,
    ⟨s', hs', hrotates'.once _ hmem hangle⟩⟩

end CircuitSynthesis
