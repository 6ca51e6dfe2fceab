import CircuitSynthesis.Proofs.Edit
import CircuitSynthesis.Proofs.History
import CircuitSynthesis.Proofs.Simulation.Adjoint
import Mathlib.Data.Set.List

/-!
# The adjoint circuit

A circuit accepts the adjoints of its gates: they have the same operands, and
the inverse of an operation asks for the same ones. Appended in reverse order
they undo the gates one by one, from the last to the first, so that every
basis state comes back with the phase it had. Hence no two patterns lead to
the same output (`Circuit.adjoints_undo`).
-/

namespace CircuitSynthesis

/-- Steps that each undo one of a list, taken in reverse order, undo them all. -/
theorem foldl_reverse_of_undo {σ α : Type} {step : σ → α → σ} {l undo : List α}
    (h : List.Forall₂ (fun a b => ∀ s, step (step s a) b = s) l undo) (s : σ) :
    undo.reverse.foldl step (l.foldl step s) = s := by
  induction h generalizing s with
  | nil => rfl
  | cons hab _ ih =>
    rw [List.foldl_cons, List.reverse_cons, List.foldl_append, ih]
    exact hab s

/-! ## The inverse of an operation -/

namespace Operation

variable {op op' : Operation}

/-- The inverse takes as many operands, of the same kinds. -/
theorem operands_of_adjoint? (h : op.adjoint? = some op') :
    op'.accepts = op.accepts ∧ op'.operandKind = op.operandKind := by
  cases op <;> cases h <;> exact ⟨rfl, rfl⟩

theorem isExact_of_adjoint? (h : op.adjoint? = some op')
    (hexact : op.angle?.all Angle.isExact = true) : op'.angle?.all Angle.isExact = true := by
  cases op with
  | rotation axis a =>
    cases h
    cases a with
    | turn k => rfl
    | radians x => cases hexact
  | _ => cases h <;> rfl

/-- An exact operation and its inverse are recognized as undoing each other. -/
theorem isAdjointOf_of_adjoint? (h : op.adjoint? = some op')
    (hexact : op.angle?.all Angle.isExact = true) : op.isAdjointOf op' = true := by
  cases op with
  | rotation axis a =>
    cases h
    obtain ⟨k, rfl⟩ : ∃ k, a = .turn k := by simpa [angle?, Angle.isExact_iff] using hexact
    have hzero : Angle.closeTo Angle.defaultTolerance (.turn (k + -k)) 0 = true := by
      rw [add_neg_cancel]
      rfl
    show (axis == axis && Angle.closeTo _ (.turn (k + -k)) 0) = true
    rw [hzero, beq_self_eq_true, Bool.and_self]
  | _ => cases h <;> simp [isAdjointOf, adjoint?, same]

end Operation

/-! ## The adjoint of a gate -/

namespace Gate

variable {g h : Gate}

theorem sameOperands_refl (ws : List Wire) : sameOperands ws ws = true := by
  simp [sameOperands]

theorem of_adjoint?_eq_some (h' : g.adjoint? = some h) :
    g.operation.adjoint? = some h.operation ∧ h.controls = g.controls ∧ h.targets = g.targets := by
  obtain ⟨op, hop, rfl⟩ := Option.map_eq_some_iff.mp h'
  exact ⟨hop, rfl, rfl⟩

theorem isAdjointOf_of_adjoint? (h' : g.adjoint? = some h) (hexact : g.isExact = true) :
    g.isAdjointOf h = true := by
  obtain ⟨hop, hcontrols, htargets⟩ := of_adjoint?_eq_some h'
  simp [isAdjointOf, hcontrols, htargets, sameOperands_refl,
    Operation.isAdjointOf_of_adjoint? hop hexact]

theorem isExact_of_adjoint? (h' : g.adjoint? = some h) (hexact : g.isExact = true) :
    h.isExact = true := Operation.isExact_of_adjoint? (of_adjoint?_eq_some h').1 hexact

theorem isClassical_of_adjoint? (h' : g.adjoint? = some h) (hclassical : g.isClassical = true) :
    h.isClassical = true := by
  obtain ⟨op, controls, targets⟩ := g
  obtain ⟨op', hop, rfl⟩ := Option.map_eq_some_iff.mp h'
  cases op with
  | rotation axis a => cases axis <;> cases hop <;> exact hclassical
  | _ => cases hop <;> exact hclassical

/-- Only a measurement has no adjoint, and a measurement is not classical. -/
theorem exists_adjoint? (hclassical : g.isClassical = true) : ∃ h, g.adjoint? = some h := by
  obtain ⟨op, controls, targets⟩ := g
  cases op with
  | measure => cases hclassical
  | _ => exact ⟨_, rfl⟩

theorem validate_of_adjoint? (h' : g.adjoint? = some h) (hvalid : g.validate = .ok ()) :
    h.validate = .ok () := by
  obtain ⟨hop, hcontrols, htargets⟩ := of_adjoint?_eq_some h'
  obtain ⟨haccepts, hkind⟩ := Operation.operands_of_adjoint? hop
  rw [validate_eq_ok_iff] at hvalid ⊢
  simpa only [operands, hcontrols, htargets, haccepts, hkind] using hvalid

/-- The pattern does not depend on the phase. -/
theorem fst_foldl_advance (gates : List Gate) (x : Nat) (j k : Fin 8) :
    (gates.foldl advance (x, j)).1 = (gates.foldl advance (x, k)).1 := by
  induction gates generalizing x j k with
  | nil => rfl
  | cons g gates ih => exact ih (x ^^^ g.flips x) (j + g.eighthsAt x) (k + g.eighthsAt x)

end Gate

/-! ## The adjoint of a circuit -/

namespace Circuit

variable {c : Circuit}

/-- A gate of the circuit that maps basis states to basis states, with an exact
phase. -/
structure Undoable (c : Circuit) (g : Gate) : Prop where
  admits : c.Admits g
  isClassical : g.isClassical = true
  isExact : g.isExact = true

theorem Undoable.of_adjoint? {g h : Gate} (hg : c.Undoable g) (h' : g.adjoint? = some h) :
    c.Undoable h := by
  obtain ⟨-, hcontrols, htargets⟩ := Gate.of_adjoint?_eq_some h'
  have hoperands : h.operands = g.operands := by
    rw [Gate.operands, Gate.operands, hcontrols, htargets]
  exact ⟨⟨Gate.validate_of_adjoint? h' hg.admits.valid, hoperands ▸ hg.admits.onWires⟩,
    Gate.isClassical_of_adjoint? h' hg.isClassical, Gate.isExact_of_adjoint? h' hg.isExact⟩

theorem Undoable.advance_adjoint? {g h : Gate} (hg : c.Undoable g) (h' : g.adjoint? = some h)
    (s : Nat × Fin 8) : Gate.advance (Gate.advance s g) h = s :=
  Gate.advance_advance hg.admits.valid hg.admits.nodup_indices
    (Gate.isAdjointOf_of_adjoint? h' hg.isExact) hg.isClassical hg.isExact
    (hg.of_adjoint? h').isExact s

variable {gates adjoints : List Gate}

theorem exists_adjoints (hgates : ∀ g ∈ gates, c.Undoable g) :
    ∃ adjoints : List Gate, gates.map Gate.adjoint? = adjoints.map some := by
  have hrange : gates.map Gate.adjoint? ∈ Set.range (List.map some) := by
    rw [Set.range_list_map]
    intro h hh
    obtain ⟨g, hg, rfl⟩ := List.mem_map.mp hh
    obtain ⟨h, hadjoint⟩ := Gate.exists_adjoint? (hgates g hg).isClassical
    exact ⟨h, hadjoint.symm⟩
  obtain ⟨adjoints, hadjoints⟩ := hrange
  exact ⟨adjoints, hadjoints.symm⟩

theorem undoable_of_mem_adjoints (hgates : ∀ g ∈ gates, c.Undoable g)
    (hadjoints : gates.map Gate.adjoint? = adjoints.map some) : ∀ h ∈ adjoints, c.Undoable h := by
  intro h hh
  have hmem : some h ∈ gates.map Gate.adjoint? := hadjoints ▸ List.mem_map_of_mem hh
  obtain ⟨g, hg, hadjoint⟩ := List.mem_map.mp hmem
  exact (hgates g hg).of_adjoint? hadjoint

/-- What a run of gates does, their adjoints in reverse order undo. -/
theorem foldl_advance_adjoints (hgates : ∀ g ∈ gates, c.Undoable g)
    (hadjoints : gates.map Gate.adjoint? = adjoints.map some) (s : Nat × Fin 8) :
    adjoints.reverse.foldl Gate.advance (gates.foldl Gate.advance s) = s := by
  refine foldl_reverse_of_undo ?_ s
  have hpairs : List.Forall₂ (fun g h => g.adjoint? = some h) gates adjoints := by
    rw [← List.forall₂_eq_eq_eq, List.forall₂_map_left_iff,
      List.forall₂_map_right_iff] at hadjoints
    exact hadjoints
  refine ((List.forall₂_and_left _ _).mpr ⟨hgates, hpairs⟩).imp ?_
  rintro g h ⟨hg, h'⟩ s
  exact hg.advance_adjoint? h' s

/-- A circuit of undoable gates that brings every state back is the identity. -/
theorem simulate_phaseOf_of_foldl_advance {d : Circuit} (hwidth : d.wireCount ≤ Bits.wordSize)
    (hgates : ∀ g ∈ d.liveGates, c.Undoable g)
    (hback : ∀ s, d.liveGates.foldl Gate.advance s = s) (x : Nat) :
    d.simulate x = .ok x ∧ d.phaseOf x = .ok 0 := by
  have hclassical : ∀ g ∈ d.liveGates, g.isClassical = true := fun g hg => (hgates g hg).isClassical
  constructor
  · refine (simulate_eq_ok_iff 0).mpr ⟨hwidth, hclassical, ?_⟩
    rw [hback]
  · refine (phaseOf_eq_ok_iff (fun g hg => (hgates g hg).admits.valid)
      fun g hg => (hgates g hg).isExact).mpr ⟨hwidth, hclassical, ?_⟩
    rw [hback]
    rfl

/-- **The adjoint circuit.** If a reachable circuit with exact angles can be
simulated on one pattern, its gates have adjoints. With these appended in
reverse order it takes every pattern to itself and turns no phase. So it can be
simulated on every pattern, and different patterns have different outputs. -/
theorem adjoints_undo (hc : c.Reachable) (hexact : ∀ g ∈ c.liveGates, g.isExact = true)
    {x₀ y₀ : Nat} (hrun : c.simulate x₀ = .ok y₀) :
    (∃ (adjoints : List Gate) (d : Circuit),
      c.liveGates.map Gate.adjoint? = adjoints.map some ∧
      Edit.emitAll adjoints.reverse c = .ok () d ∧
      ∀ x, d.simulate x = .ok x ∧ d.phaseOf x = .ok 0) ∧
    (∀ x, ∃ y, c.simulate x = .ok y) ∧
    ∀ x x' y, c.simulate x = .ok y → c.simulate x' = .ok y → x = x' := by
  obtain ⟨hwidth, hclassical, -⟩ := (simulate_eq_ok_iff 0).mp hrun
  have hgates : ∀ g ∈ c.liveGates, c.Undoable g := fun g hg =>
    ⟨hc.sound.admits_of_mem_liveGates hg, hclassical g hg, hexact g hg⟩
  obtain ⟨adjoints, hadjoints⟩ := exists_adjoints hgates
  have hundo := foldl_advance_adjoints hgates hadjoints
  have hall : ∀ h ∈ adjoints.reverse, c.Undoable h := fun h hh =>
    undoable_of_mem_adjoints hgates hadjoints h (List.mem_reverse.mp hh)
  refine ⟨⟨adjoints, _, hadjoints, Edit.emitAll_of_admits fun h hh => (hall h hh).admits, ?_⟩,
    fun x => ⟨_, (simulate_eq_ok_iff 0).mpr ⟨hwidth, hclassical, rfl⟩⟩, fun x x' y hx hx' => ?_⟩
  · apply simulate_phaseOf_of_foldl_advance (c := c)
    · rwa [foldl_place_wireCount]
    · rw [foldl_place_liveGates]
      exact List.forall_mem_append.mpr ⟨hgates, hall⟩
    · intro s
      rw [foldl_place_liveGates, List.foldl_append, hundo]
  · -- The outputs agree, so from there the adjoints lead back to one pattern.
    obtain ⟨-, -, hy⟩ := (simulate_eq_ok_iff 0).mp hx
    obtain ⟨-, -, hy'⟩ := (simulate_eq_ok_iff 0).mp hx'
    calc x = (adjoints.reverse.foldl Gate.advance (c.liveGates.foldl Gate.advance (x, 0))).1 := by
          rw [hundo]
      _ = (adjoints.reverse.foldl Gate.advance (y, 0)).1 := by
          rw [← hy]
          exact Gate.fst_foldl_advance _ _ _ _
      _ = (adjoints.reverse.foldl Gate.advance (c.liveGates.foldl Gate.advance (x', 0))).1 := by
          rw [← hy']
          exact Gate.fst_foldl_advance _ _ _ _
      _ = x' := by rw [hundo]

/-- Flips, exchanges and phases on three qubits, with a complemented control, a
phase on two targets and a marked gate that has no adjoint. -/
def undoable : Circuit := ofHistory [.addWire .qubit, .addWire .qubit, .addWire .qubit,
  .addWire .cbit, .append ⟨.pauli .y, [], [.qubit 0]⟩,
  .append (.cx (Wire.qubit 0).complement (.qubit 1)), .append ⟨.measure, [], [.qubit 2, .cbit 3]⟩,
  .setMarked 10 true, .append ⟨.mcz, [.qubit 1], [.qubit 0, .qubit 2]⟩,
  .append ⟨.swap, [], [.qubit 1, .qubit 2]⟩, .append (.rotationZ (.ofEighths 3) (.qubit 2))]

theorem adjoints_undo_undoable :
    undoable.Reachable ∧ undoable.isMarked 10 = true ∧ undoable.simulate 5 = .ok 6 ∧
      undoable.phaseOf 5 = .ok (.ofEighths 5) ∧
      (∃ (adjoints : List Gate) (d : Circuit),
        undoable.liveGates.map Gate.adjoint? = adjoints.map some ∧
        Edit.emitAll adjoints.reverse undoable = .ok () d ∧
        d.simulate 5 = .ok 5 ∧ d.phaseOf 5 = .ok 0) ∧
      ∀ x, undoable.simulate x = .ok 6 → x = 5 := by
  have hc : undoable.Reachable := ⟨_, rfl⟩
  have hrun : undoable.simulate 5 = .ok 6 := rfl
  obtain ⟨⟨adjoints, d, hadjoints, hd, hback⟩, -, hinjective⟩ :=
    adjoints_undo hc (by decide) hrun
  exact ⟨hc, rfl, hrun, rfl, ⟨adjoints, d, hadjoints, hd, hback 5⟩,
    fun x hx => hinjective x 5 6 hx hrun⟩

end Circuit

end CircuitSynthesis
