import CircuitSynthesis.Proofs.Simulation.Locality
import Mathlib.Data.LawfulXor.Basic
import Mathlib.Data.List.Permutation

/-!
# Adjoint gates undo each other

The operands of two adjoint gates are the same up to their order, and neither
gate sees a difference. Their operations are either diagonal with opposite
phases or one and the same. In both cases the second gate takes back the bits
that the first one flipped and the phase it turned (`Gate.advance_advance`).
-/

namespace CircuitSynthesis

/-- Exact operations that undo each other are diagonal with opposite phases,
or not diagonal and one and the same, or rotations that move basis states. -/
theorem Operation.isAdjointOf_cases {op op' : Operation} (h : op.isAdjointOf op' = true)
    (hexact : op.angle?.all Angle.isExact = true) (hexact' : op'.angle?.all Angle.isExact = true) :
    (∃ a b : Fin 8, op.diagonalPhase? = some (.turn a) ∧ op'.diagonalPhase? = some (.turn b) ∧
      a + b = 0) ∨
    (op' = op ∧ op.diagonalPhase? = none) ∨ ∃ axis a, axis ≠ .z ∧ op = .rotation axis a := by
  cases op with
  | rotation axis a =>
    cases op' with
    | rotation axis' b =>
      obtain ⟨j, rfl⟩ : ∃ j, a = .turn j := by simpa [angle?, Angle.isExact_iff] using hexact
      obtain ⟨k, rfl⟩ : ∃ k, b = .turn k := by simpa [angle?, Angle.isExact_iff] using hexact'
      obtain ⟨rfl, hsum⟩ : axis = axis' ∧ Angle.closeTo _ (.turn (j + k)) 0 = true := by
        simpa [isAdjointOf] using h
      have hzero : j + k = 0 := beq_iff_eq.mp hsum
      cases axis with
      | z => exact .inl ⟨j, k, rfl, rfl, hzero⟩
      | x | y => exact .inr (.inr ⟨_, _, by simp, rfl⟩)
    | _ => simp [isAdjointOf, adjoint?, same] at h
  | s | sDagger | t | tDagger | cz | mcz =>
    obtain rfl : _ = op' := by simpa [isAdjointOf, adjoint?, same] using h
    exact .inl ⟨_, _, rfl, rfl, rfl⟩
  | pauli axis =>
    obtain rfl : _ = op' := by simpa [isAdjointOf, adjoint?, same] using h
    cases axis with
    | z => exact .inl ⟨_, _, rfl, rfl, rfl⟩
    | x | y => exact .inr (.inl ⟨rfl, rfl⟩)
  | identity | hadamard | cx | mcx | swap =>
    obtain rfl : _ = op' := by simpa [isAdjointOf, adjoint?, same] using h
    exact .inr (.inl ⟨rfl, rfl⟩)
  | measure => simp [isAdjointOf, adjoint?] at h

namespace Gate

/-! ## Operands in another order -/

theorem perm_of_sameOperands {v w : List Wire} (hv : v.Nodup) (h : sameOperands v w = true) :
    v.Perm w := by
  obtain ⟨hlength, hmem⟩ : v.length = w.length ∧ ∀ u ∈ v, u ∈ w := by
    simpa [sameOperands] using h
  exact (List.subperm_of_subset hv hmem).perm_of_length_le hlength.ge

theorem mask_eq_of_perm {v w : List Wire} (h : v.Perm w) : mask v = mask w := by
  induction h with
  | nil => rfl
  | cons _ _ ih => rw [mask, mask, ih]
  | swap u v ws =>
    rw [mask, mask, mask, mask, ← Nat.xor_assoc, ← Nat.xor_assoc, Nat.xor_comm (2 ^ u.index)]
  | trans _ _ ih ih' => exact ih.trans ih'

variable {g h : Gate} {x : Nat}

/-- The two gates have the same controls and the same targets, in any order. -/
structure Alike (g h : Gate) : Prop where
  controls : g.controls.Perm h.controls
  targets : g.targets.Perm h.targets

theorem Alike.isActive_eq (ha : Alike g h) (x : Nat) : h.isActive x = g.isActive x := by
  unfold isActive
  exact ha.controls.symm.all_eq

theorem Alike.countP_eq (ha : Alike g h) (p : Wire → Bool) :
    h.targets.countP p = g.targets.countP p := ha.targets.symm.countP_eq p

/-! ## Two steps -/

theorem mask_testBit_control (hnodup : g.indices.Nodup) {w : Wire} (hw : w ∈ g.controls) :
    (mask g.targets).testBit w.index = false := by
  rw [Bool.eq_false_iff]
  intro hbit
  obtain ⟨v, hv, hindex⟩ := exists_index_of_testBit_mask hbit
  exact (of_nodup_indices hnodup).1 w hw v hv hindex.symm

/-- Flipping its targets does not change whether a gate acts. -/
theorem isActive_xor_mask (hnodup : g.indices.Nodup) (x : Nat) :
    g.isActive (x ^^^ mask g.targets) = g.isActive x := by
  unfold isActive
  rw [Bool.eq_iff_iff, List.all_eq_true, List.all_eq_true]
  refine forall₂_congr fun w hw => ?_
  rw [valueOf, valueOf, Nat.testBit_xor, mask_testBit_control hnodup hw, Bool.xor_false]

theorem flips_of_diagonalPhase? {angle : Angle} (hop : g.operation.diagonalPhase? = some angle)
    (x : Nat) : g.flips x = 0 := by
  unfold flips
  split <;> simp_all [Operation.diagonalPhase?]

theorem eighthsAt_of_diagonalPhase? {a : Fin 8}
    (hop : g.operation.diagonalPhase? = some (.turn a)) (x : Nat) :
    g.eighthsAt x = if g.isActive x then g.targets.countP (valueOf x) • a else 0 := by
  unfold eighthsAt
  split
  · simp_all [Operation.diagonalPhase?]
  · rw [hop]
    exact g.eighths_diagonalTurn x a

/-- Opposite phases cancel on every pattern. -/
theorem advance_advance_of_diagonal (ha : Alike g h) {a b : Fin 8}
    (hg : g.operation.diagonalPhase? = some (.turn a))
    (hh : h.operation.diagonalPhase? = some (.turn b)) (hab : a + b = 0) (s : Nat × Fin 8) :
    advance (advance s g) h = s := by
  have hturns : g.eighthsAt s.1 + h.eighthsAt s.1 = 0 := by
    rw [eighthsAt_of_diagonalPhase? hg, eighthsAt_of_diagonalPhase? hh, ha.isActive_eq,
      ha.countP_eq]
    cases g.isActive s.1 with
    | false => rfl
    | true => rw [if_pos rfl, if_pos rfl, ← nsmul_add, hab, nsmul_zero]
  simp [advance, flips_of_diagonalPhase? hg, flips_of_diagonalPhase? hh, add_assoc, hturns]

/-- What a controlled flip did, doing it again undoes. -/
theorem advance_advance_of_flip (ha : Alike g h) (hnodup : g.indices.Nodup)
    (hop : g.operation = .pauli .x ∨ g.operation = .cx ∨ g.operation = .mcx)
    (hsame : h.operation = g.operation) (s : Nat × Fin 8) : advance (advance s g) h = s := by
  have hmask := mask_eq_of_perm ha.targets
  have hagain := isActive_xor_mask hnodup s.1
  rcases hop with hop | hop | hop <;> rw [hop] at hsame <;>
    cases hactive : g.isActive s.1 <;>
    simp_all [advance, flips, eighthsAt, Operation.diagonalPhase?, ha.isActive_eq]

theorem advance_advance_of_y (ha : Alike g h) (hvalid : g.validate = .ok ())
    (hop : g.operation = .pauli .y) (hsame : h.operation = g.operation) (s : Nat × Fin 8) :
    advance (advance s g) h = s := by
  obtain ⟨hcontrols, w, htargets⟩ := operands_of_pauli hvalid hop
  have hcontrols' : h.controls = [] := by
    have := ha.controls
    rw [hcontrols] at this
    exact this.symm.eq_nil
  have htargets' : h.targets = [w] := by
    have := ha.targets
    rw [htargets] at this
    exact this.symm.eq_singleton
  cases hbit : s.1.testBit w.index <;>
    simp [advance, flips, eighthsAt, isActive, hop, hsame, hcontrols, htargets, hcontrols',
      htargets', valueOf, hbit, mask, add_assoc, Angle.ofEighths]

/-- A valid exchange has two targets. -/
theorem targets_of_swap (hvalid : g.validate = .ok ()) (hop : g.operation = .swap) :
    ∃ v w, g.targets = [v, w] := by
  have haccepts := ((validate_eq_ok_iff g).mp hvalid).1
  rw [hop] at haccepts
  have hlength : g.targets.length = 2 := by
    simpa [Operation.accepts] using (Bool.and_eq_true_iff.mp haccepts).2
  exact List.length_eq_two.mp hlength

theorem flips_of_swap {v w : Wire} (hop : g.operation = .swap) (htargets : g.targets = [v, w])
    (x : Nat) : g.flips x = if valueOf x v == valueOf x w then 0 else mask [v, w] := by
  simp [flips, hop, htargets]

theorem advance_advance_of_swap (ha : Alike g h) (hnodup : g.indices.Nodup)
    (hvalid : g.validate = .ok ()) (hop : g.operation = .swap) (hsame : h.operation = g.operation)
    (s : Nat × Fin 8) : advance (advance s g) h = s := by
  obtain ⟨v, w, htargets⟩ := targets_of_swap hvalid hop
  have hne : v.index ≠ w.index := by simpa [htargets] using (of_nodup_indices hnodup).2
  -- Either order of the two targets gives the same flips.
  have hflips (x : Nat) : h.flips x = if valueOf x v == valueOf x w then 0 else mask [v, w] := by
    rcases List.pair_perm.mp (htargets ▸ ha.targets) with htargets' | htargets'
    · exact flips_of_swap (hsame.trans hop) htargets' x
    · rw [flips_of_swap (hsame.trans hop) htargets' x, mask_eq_of_perm (.swap v w []),
        Bool.beq_comm]
  have hturns (k : Gate) (hk : k.operation = .swap) (x : Nat) : k.eighthsAt x = 0 := by
    simp [eighthsAt, hk, Operation.diagonalPhase?]
  cases hv : s.1.testBit v.index <;> cases hw : s.1.testBit w.index <;>
    simp [advance, flips_of_swap hop htargets, hflips, hturns g hop, hturns h (hsame.trans hop),
      valueOf, mask, hv, hw, hne, hne.symm]

/-- The operands of adjoint gates differ in their order at most. -/
theorem alike_of_isAdjointOf (hnodup : g.indices.Nodup) (h' : g.isAdjointOf h = true) :
    Alike g h := by
  obtain ⟨⟨-, hcontrols⟩, htargets⟩ : (_ ∧ sameOperands g.controls h.controls = true) ∧
      sameOperands g.targets h.targets = true := by
    simpa only [isAdjointOf, Bool.and_eq_true] using h'
  have hoperands : (g.controls ++ g.targets).Nodup := hnodup.of_map
  exact ⟨perm_of_sameOperands hoperands.of_append_left hcontrols,
    perm_of_sameOperands hoperands.of_append_right htargets⟩

/-- A gate and its adjoint, one after the other, leave pattern and phase as
they were. -/
theorem advance_advance (hvalid : g.validate = .ok ()) (hnodup : g.indices.Nodup)
    (hadjoint : g.isAdjointOf h = true) (hclassical : g.isClassical = true)
    (hg : g.isExact = true) (hh : h.isExact = true) (s : Nat × Fin 8) :
    advance (advance s g) h = s := by
  have ha := alike_of_isAdjointOf hnodup hadjoint
  have hops : g.operation.isAdjointOf h.operation = true := by
    simp only [isAdjointOf, Bool.and_eq_true] at hadjoint
    exact hadjoint.1.1
  rcases Operation.isAdjointOf_cases hops hg hh with
    ⟨a, b, hphase, hphase', hab⟩ | ⟨hsame, hphase⟩ | ⟨axis, a, haxis, hop⟩
  · exact advance_advance_of_diagonal ha hphase hphase' hab s
  · cases hop : g.operation with
    | pauli axis =>
      cases axis with
      | x => exact advance_advance_of_flip ha hnodup (.inl hop) hsame s
      | y => exact advance_advance_of_y ha hvalid hop hsame s
      | z => simp [hop, Operation.diagonalPhase?] at hphase
    | cx => exact advance_advance_of_flip ha hnodup (.inr (.inl hop)) hsame s
    | mcx => exact advance_advance_of_flip ha hnodup (.inr (.inr hop)) hsame s
    | swap => exact advance_advance_of_swap ha hnodup hvalid hop hsame s
    | identity => simp [advance, flips, eighthsAt, hsame, hop, Operation.diagonalPhase?]
    | _ => simp_all [isClassical, Operation.isDiagonal]
  · cases axis <;> simp_all [isClassical, Operation.isDiagonal, Operation.diagonalPhase?]

end Gate

end CircuitSynthesis
