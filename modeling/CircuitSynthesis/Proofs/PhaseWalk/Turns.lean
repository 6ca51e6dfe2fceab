import CircuitSynthesis.Proofs.PhaseWalk.Simulation

/-!
# Every term is turned once

A walk of CNOTs with phases turns each nonzero term once, on a qubit that
carries its parity, provided that the CNOTs reach every parity that no single
qubit has from the start (`turns_steps_perm`). What is turned and what is
still pending make up the terms at every moment.
-/

namespace CircuitSynthesis.PhaseWalk

open PhasePolynomial PhaseStep

/-- The parities that CNOTs leave on their targets, in order. -/
def reached (parities : List Nat) : List Cnot → List Nat
  | [] => []
  | g :: rest => (Cnot.act parities g).getD g.target 0 :: reached (Cnot.act parities g) rest

variable (pending : PhasePolynomial) {parities : List Nat} {parity qubit mask n : Nat}
  {gates : List Cnot}

/-! ## A single turn -/

theorem perm_turnAt (h : parities.getD qubit 0 = parity) :
    (turns parities (turnAt pending parity qubit).1 ++
      (turnAt pending parity qubit).2.terms).Perm pending.terms := by
  unfold turnAt
  cases hget : pending.get? parity with
  | none => exact .refl _
  | some angle =>
    show ((parities.getD qubit 0, angle) :: (pending.erase parity).terms).Perm _
    rw [h]
    exact perm_cons_erase hget

theorem mem_masks_turnAt :
    mask ∈ (turnAt pending parity qubit).2.masks ↔ mask ∈ pending.masks ∧ mask ≠ parity := by
  unfold turnAt
  cases hget : pending.get? parity with
  | none =>
    have hnot : parity ∉ pending.masks := get?_eq_none_iff.mp hget
    exact ⟨fun h => ⟨h, fun he => hnot (he ▸ h)⟩, fun h => h.1⟩
  | some angle => exact mem_masks_erase

theorem cnots_turnAt : cnots (turnAt pending parity qubit).1 = [] := by
  unfold turnAt
  cases pending.get? parity <;> rfl

theorem wellFormed_turnAt (h : qubit < n) :
    ∀ s ∈ (turnAt pending parity qubit).1, s.WellFormed n := by
  intro s hs
  unfold turnAt at hs
  split at hs
  · rw [List.mem_singleton.mp hs]
    exact h
  · cases hs

/-! ## Before any CNOT -/

theorem opening_cons (qubit : Nat) (rest : List Nat) :
    opening pending (qubit :: rest) =
      ((turnAt pending (2 ^ qubit) qubit).1 ++
        (opening (turnAt pending (2 ^ qubit) qubit).2 rest).1,
      (opening (turnAt pending (2 ^ qubit) qubit).2 rest).2) := rfl

theorem cnots_opening (qubits : List Nat) : cnots (opening pending qubits).1 = [] := by
  induction qubits generalizing pending with
  | nil => rfl
  | cons q rest ih =>
    rw [opening_cons, cnots_append, cnots_turnAt, ih]
    rfl

theorem perm_opening (qubits : List Nat) (h : ∀ q ∈ qubits, parities.getD q 0 = 2 ^ q) :
    (turns parities (opening pending qubits).1 ++
      (opening pending qubits).2.terms).Perm pending.terms := by
  induction qubits generalizing pending with
  | nil => exact .refl _
  | cons q rest ih =>
    have hturn := perm_turnAt pending (h q List.mem_cons_self)
    have hrest := ih (turnAt pending (2 ^ q) q).2 fun q' hq' => h q' (List.mem_cons_of_mem _ hq')
    rw [opening_cons, turns_append, cnots_turnAt, List.append_assoc]
    exact (hrest.append_left _).trans hturn

theorem mem_masks_opening (qubits : List Nat) :
    mask ∈ (opening pending qubits).2.masks ↔
      mask ∈ pending.masks ∧ ∀ q ∈ qubits, mask ≠ 2 ^ q := by
  induction qubits generalizing pending with
  | nil => exact ⟨fun h => ⟨h, by simp⟩, fun h => h.1⟩
  | cons q rest ih =>
    rw [opening_cons, ih, mem_masks_turnAt, List.forall_mem_cons, and_assoc]

theorem wellFormed_opening (qubits : List Nat) (h : ∀ q ∈ qubits, q < n) :
    ∀ s ∈ (opening pending qubits).1, s.WellFormed n := by
  induction qubits generalizing pending with
  | nil => exact fun _ hs => absurd hs List.not_mem_nil
  | cons q rest ih =>
    intro s hs
    rw [opening_cons] at hs
    rcases List.mem_append.mp hs with hs | hs
    · exact wellFormed_turnAt pending (h q List.mem_cons_self) s hs
    · exact ih _ (fun q' hq' => h q' (List.mem_cons_of_mem _ hq')) s hs

/-! ## Along the CNOTs -/

theorem along_cons (parities : List Nat) (g : Cnot) (rest : List Cnot) :
    along pending parities (g :: rest) =
      .cnot g :: ((turnAt pending ((Cnot.act parities g).getD g.target 0) g.target).1 ++
        along (turnAt pending ((Cnot.act parities g).getD g.target 0) g.target).2
          (Cnot.act parities g) rest) := rfl

theorem cnots_along (parities : List Nat) (gates : List Cnot) :
    cnots (along pending parities gates) = gates := by
  induction gates generalizing pending parities with
  | nil => rfl
  | cons g rest ih =>
    rw [along_cons, cnots, cnots_append, cnots_turnAt, ih]
    rfl

theorem wellFormed_along (hgates : ∀ g ∈ gates, g.WellFormed n) :
    ∀ s ∈ along pending parities gates, s.WellFormed n := by
  induction gates generalizing pending parities with
  | nil => exact fun _ hs => absurd hs List.not_mem_nil
  | cons g rest ih =>
    have hg : g.WellFormed n := hgates g List.mem_cons_self
    intro s hs
    rw [along_cons] at hs
    rcases List.mem_cons.mp hs with rfl | hs
    · exact hg
    · rcases List.mem_append.mp hs with hs | hs
      · exact wellFormed_turnAt pending hg.target_lt s hs
      · exact ih _ (fun g' hg' => hgates g' (List.mem_cons_of_mem _ hg')) s hs

/-- What is pending is turned, if all of it is reached. -/
theorem perm_along (h : ∀ mask ∈ pending.masks, mask ∈ reached parities gates) :
    (turns parities (along pending parities gates)).Perm pending.terms := by
  induction gates generalizing pending parities with
  | nil =>
    -- Nothing is reached any more, so nothing can be pending.
    have hnil : pending.terms = [] := by
      apply List.eq_nil_iff_forall_not_mem.mpr
      intro t ht
      exact absurd (h t.1 (List.mem_map_of_mem ht)) List.not_mem_nil
    rw [hnil]
    exact .refl _
  | cons g rest ih =>
    have hturn := perm_turnAt pending
      (show (Cnot.act parities g).getD g.target 0 = _ from rfl)
    have hrest : ∀ mask ∈ (turnAt pending ((Cnot.act parities g).getD g.target 0) g.target).2.masks,
        mask ∈ reached (Cnot.act parities g) rest := by
      intro mask hmask
      obtain ⟨hmem, hne⟩ := (mem_masks_turnAt pending).mp hmask
      rcases List.mem_cons.mp (h mask hmem) with heq | hmem
      · exact absurd heq hne
      · exact hmem
    rw [along_cons, turns, turns_append, cnots_turnAt]
    exact ((ih _ hrest).append_left _).trans hturn

/-! ## The whole walk -/

theorem steps_eq (n : Nat) (terms : PhasePolynomial) (gates : List Cnot) :
    steps n terms gates = (opening terms.nonzero (List.range n)).1 ++
      along (opening terms.nonzero (List.range n)).2 (Bits.units n) gates := rfl

theorem cnots_steps (n : Nat) (terms : PhasePolynomial) (gates : List Cnot) :
    cnots (steps n terms gates) = gates := by
  rw [steps_eq, cnots_append, cnots_opening, cnots_along]
  rfl

theorem wellFormed_steps (terms : PhasePolynomial) (hgates : ∀ g ∈ gates, g.WellFormed n) :
    ∀ s ∈ steps n terms gates, s.WellFormed n := by
  intro s hs
  rw [steps_eq] at hs
  rcases List.mem_append.mp hs with hs | hs
  · exact wellFormed_opening _ _ (fun q hq => List.mem_range.mp hq) s hs
  · exact wellFormed_along _ hgates s hs

/-- A walk turns every nonzero term once, at its parity, if the CNOTs reach
all parities but those of single qubits. -/
theorem turns_steps_perm {terms : PhasePolynomial}
    (h : ∀ mask ∈ terms.nonzero.masks,
      (∃ q < n, mask = 2 ^ q) ∨ mask ∈ reached (Bits.units n) gates) :
    (turns (Bits.units n) (steps n terms gates)).Perm terms.nonzero.terms := by
  have hopening := perm_opening terms.nonzero (List.range n) fun q hq =>
    getD_units (List.mem_range.mp hq)
  have hpending : ∀ mask ∈ (opening terms.nonzero (List.range n)).2.masks,
      mask ∈ reached (Bits.units n) gates := by
    intro mask hmask
    obtain ⟨hmem, hne⟩ := (mem_masks_opening _ _).mp hmask
    rcases h mask hmem with ⟨q, hq, heq⟩ | hreached
    · exact absurd heq (hne q (List.mem_range.mpr hq))
    · exact hreached
  rw [steps_eq, turns_append, cnots_opening]
  exact ((perm_along _ hpending).append_left _).trans hopening

end CircuitSynthesis.PhaseWalk
