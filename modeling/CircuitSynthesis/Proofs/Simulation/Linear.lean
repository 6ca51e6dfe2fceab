import CircuitSynthesis.Proofs.BinaryMatrix.Invertibility
import CircuitSynthesis.Proofs.Cnot.RoundTrip
import CircuitSynthesis.Proofs.PhaseWalk.Simulation
import CircuitSynthesis.Proofs.Simulation.Locality
import Mathlib.Data.LawfulXor.Basic
import Mathlib.Data.Nat.Bitwise

/-!
# Linear circuits

A gate that is linear up to phases does what a short list of CNOTs does, to
the parities on the wires and to bit patterns alike: a controlled flip is a
CNOT for each target, an exchange is three CNOTs, and a diagonal gate is none.
So a circuit that computes a linear map computes an invertible one, and this
map gives the output of every pattern (`Circuit.linearPart_sound`).
-/

namespace CircuitSynthesis

/-! ## CNOTs on patterns -/

namespace Cnot

/-- The action on a bit pattern. -/
def onPattern (x : Nat) (k : Cnot) : Nat :=
  if x.testBit k.control then x ^^^ 2 ^ k.target else x

variable {n x y : Nat} {rows : List Nat} {gates : List Cnot}

theorem foldl_onPattern_lt (hgates : ∀ k ∈ gates, k.WellFormed n) (hx : x < 2 ^ n) :
    gates.foldl onPattern x < 2 ^ n := by
  induction gates generalizing x with
  | nil => exact hx
  | cons k gates ih =>
    obtain ⟨hk, hgates⟩ := List.forall_mem_cons.mp hgates
    refine ih hgates ?_
    unfold onPattern
    split
    · exact Nat.xor_lt_two_pow hx (Nat.pow_lt_pow_right (by omega) hk.target_lt)
    · exact hx

/-- A pattern that holds the parities still does after CNOTs acted on both. -/
theorem carries_run (hgates : ∀ k ∈ gates, k.WellFormed n) (hlength : rows.length = n)
    (h : PhaseStep.Carries x rows y) :
    PhaseStep.Carries x (run rows gates) (gates.foldl onPattern y) := by
  induction gates generalizing rows y with
  | nil => exact h
  | cons k gates ih =>
    obtain ⟨hk, hgates⟩ := List.forall_mem_cons.mp hgates
    exact ih hgates ((length_act rows k).trans hlength) (h.act hlength hk)

end Cnot

/-- The parities at the end, evaluated on the input, are the output. -/
theorem PhaseStep.Carries.apply_eq {M : BinaryMatrix} {x y : Nat}
    (h : PhaseStep.Carries x M.rows y) (hy : y < 2 ^ M.size) : M.apply x = y := by
  apply Nat.eq_of_testBit_eq
  intro i
  rw [BinaryMatrix.apply, Bits.testBit_ofPredicate]
  by_cases hi : i < M.size
  · simp [hi, h i hi, BinaryMatrix.row]
  · simp [hi, Bits.testBit_eq_false_of_le hy (Nat.le_of_not_lt hi)]

/-- Three CNOTs exchange two entries. -/
theorem swapEntries_eq_run {rows : List Nat} {a b : Nat} (ha : a < rows.length)
    (hb : b < rows.length) (hab : a ≠ b) :
    swapEntries rows a b = Cnot.run rows [⟨a, b⟩, ⟨b, a⟩, ⟨a, b⟩] := by
  have hba : b ≠ a := hab.symm
  apply eq_of_getD_eq (by simp)
  intro i _
  have hact (r : List Nat) (k : Cnot) (hk : k.target < r.length) (j : Nat) := Cnot.getD_act hk j
  simp only [Cnot.run_cons, Cnot.run_nil]
  rw [hact _ ⟨a, b⟩ (by simpa using hb), List.getD_eq_getElem?_getD, getElem?_swapEntries ha hb]
  simp only [hact _ ⟨b, a⟩ (show a < (Cnot.act rows ⟨a, b⟩).length by simpa using ha),
    hact rows ⟨a, b⟩ hb]
  by_cases hib : i = b
  · simp [hib, hab, hba, ha, hb]
  · by_cases hia : i = a
    · simp [hia, hab, ha, hb, Nat.xor_comm rows[b]]
    · simp [hib, hia]

namespace Gate

/-! ## Linear gates -/

/-- The gate acts on different wires among the first `n`. -/
structure WellPlaced (n : Nat) (g : Gate) : Prop where
  nodup : g.indices.Nodup
  lt : ∀ i ∈ g.indices, i < n

/-- The CNOTs that do what the gate does, if it is linear up to phases. -/
def cnots? (g : Gate) : Option (List Cnot) :=
  match g.operation, g.controls, g.targets with
  | .cx, [control], targets | .mcx, [control], targets =>
    if control.isComplemented then none
    else some (targets.map fun w => ⟨control.index, w.index⟩)
  | .swap, _, v :: w :: _ =>
    some [⟨v.index, w.index⟩, ⟨w.index, v.index⟩, ⟨v.index, w.index⟩]
  | op, _, _ => if op.isDiagonal then some [] else none

/-- The CNOTs of a linear gate, and none for other gates. -/
def cnots (g : Gate) : List Cnot := g.cnots?.getD []

/-- A linear gate is a flip under one positive control, an exchange, or
diagonal. -/
inductive LinearForm : Gate → List Cnot → Prop where
  | flip {op : Operation} {control : Wire} {targets : List Wire} (hop : op = .cx ∨ op = .mcx)
      (hpositive : control.isComplemented = false) :
      LinearForm ⟨op, [control], targets⟩ (targets.map fun w => ⟨control.index, w.index⟩)
  | exchange {controls rest : List Wire} {v w : Wire} :
      LinearForm ⟨.swap, controls, v :: w :: rest⟩
        [⟨v.index, w.index⟩, ⟨w.index, v.index⟩, ⟨v.index, w.index⟩]
  | diagonal {op : Operation} {controls targets : List Wire} (hop : op.isDiagonal = true) :
      LinearForm ⟨op, controls, targets⟩ []

variable {g : Gate} {n : Nat} {rows : List Nat} {ks : List Cnot}

theorem linearForm_of_cnots? (h : g.cnots? = some ks) : LinearForm g ks := by
  obtain ⟨op, controls, targets⟩ := g
  unfold cnots? at h
  split at h
  case h_1 control hop hcontrols =>
    obtain ⟨hpositive, rfl⟩ : control.isComplemented = false ∧ _ = ks := by simpa using h
    cases hop
    cases hcontrols
    exact .flip (.inl rfl) hpositive
  case h_2 control hop hcontrols =>
    obtain ⟨hpositive, rfl⟩ : control.isComplemented = false ∧ _ = ks := by simpa using h
    cases hop
    cases hcontrols
    exact .flip (.inr rfl) hpositive
  case h_3 v w rest hop htargets =>
    cases h
    cases hop
    cases htargets
    exact .exchange
  case h_4 =>
    obtain ⟨hdiagonal, rfl⟩ : op.isDiagonal = true ∧ [] = ks := by simpa using h
    exact .diagonal hdiagonal

theorem WellPlaced.control_notMem {op : Operation} {control : Wire} {targets : List Wire}
    (hg : WellPlaced n ⟨op, [control], targets⟩) : control.index ∉ targets.map Wire.index :=
  (List.nodup_cons.mp hg.nodup).1

theorem WellPlaced.target_lt (hg : g.WellPlaced n) {w : Wire} (hw : w ∈ g.targets) : w.index < n :=
  hg.lt _ (mem_indices_of_mem_targets hw)

theorem WellPlaced.targets_ne {op : Operation} {controls rest : List Wire} {v w : Wire}
    (hg : WellPlaced n ⟨op, controls, v :: w :: rest⟩) : v.index ≠ w.index := by
  have htargets : (v.index :: w.index :: rest.map Wire.index).Nodup :=
    (of_nodup_indices hg.nodup).2
  exact List.ne_of_not_mem_cons (List.nodup_cons.mp htargets).1

theorem addControl_eq_run {control : Wire} {targets : List Wire}
    (h : control.index ∉ targets.map Wire.index) (rows : List Nat) :
    addControl control targets rows =
      Cnot.run rows (targets.map fun w => ⟨control.index, w.index⟩) := by
  unfold addControl
  induction targets generalizing rows with
  | nil => rfl
  | cons w targets ih =>
    obtain ⟨hw, htargets⟩ : control.index ≠ w.index ∧ control.index ∉ targets.map Wire.index := by
      simpa using h
    have hcontrol : (Cnot.act rows ⟨control.index, w.index⟩).getD control.index 0 =
        rows.getD control.index 0 := by
      simp [Cnot.act, addRow, List.getD_eq_getElem?_getD, hw.symm]
    have hrest := ih htargets (Cnot.act rows ⟨control.index, w.index⟩)
    rw [hcontrol] at hrest
    exact hrest

/-- On parities a linear gate acts as its CNOTs, and other gates are refused. -/
theorem onParities_eq (hg : g.WellPlaced rows.length) :
    onParities rows g =
      match g.cnots? with
      | some ks => .ok (Cnot.run rows ks)
      | none => .error (.notLinear g) := by
  obtain ⟨op, controls, targets⟩ := g
  cases op with
  | cx | mcx =>
    match controls with
    | [control] =>
      cases hpolarity : control.isComplemented <;>
        simp [onParities, cnots?, hpolarity, addControl_eq_run hg.control_notMem]
    | [] | _ :: _ :: _ => rfl
  | swap =>
    match targets with
    | v :: w :: rest =>
      have hv : v.index < rows.length := hg.target_lt (by simp)
      have hw : w.index < rows.length := hg.target_lt (by simp)
      simp [onParities, cnots?, swapEntries_eq_run hv hw hg.targets_ne]
    | [] | [_] => rfl
  | pauli axis | rotation axis _ => cases axis <;> rfl
  | _ => rfl

theorem LinearForm.mem_indices (h : LinearForm g ks) {k : Cnot} (hk : k ∈ ks) :
    k.control ∈ g.indices ∧ k.target ∈ g.indices := by
  cases h with
  | flip =>
    obtain ⟨w, hw, rfl⟩ := List.mem_map.mp hk
    exact ⟨List.mem_cons_self, mem_indices_of_mem_targets hw⟩
  | @exchange controls rest v w =>
    have hv : v.index ∈ indices ⟨.swap, controls, v :: w :: rest⟩ :=
      mem_indices_of_mem_targets (by simp)
    have hw : w.index ∈ indices ⟨.swap, controls, v :: w :: rest⟩ :=
      mem_indices_of_mem_targets (by simp)
    simp only [List.mem_cons, List.not_mem_nil, or_false] at hk
    rcases hk with rfl | rfl | rfl
    · exact ⟨hv, hw⟩
    · exact ⟨hw, hv⟩
    · exact ⟨hv, hw⟩
  | diagonal => cases hk

theorem LinearForm.ne (h : LinearForm g ks) (hg : g.WellPlaced n) {k : Cnot} (hk : k ∈ ks) :
    k.control ≠ k.target := by
  cases h with
  | @flip _ control _ =>
    obtain ⟨w, hw, rfl⟩ := List.mem_map.mp hk
    intro (he : control.index = w.index)
    exact hg.control_notMem (he ▸ List.mem_map_of_mem hw)
  | exchange =>
    simp only [List.mem_cons, List.not_mem_nil, or_false] at hk
    rcases hk with rfl | rfl | rfl
    · exact hg.targets_ne
    · exact hg.targets_ne.symm
    · exact hg.targets_ne
  | diagonal => cases hk

theorem LinearForm.wellFormed (h : LinearForm g ks) (hg : g.WellPlaced n) {k : Cnot}
    (hk : k ∈ ks) : k.WellFormed n :=
  ⟨hg.lt _ (h.mem_indices hk).1, hg.lt _ (h.mem_indices hk).2, h.ne hg hk⟩

theorem LinearForm.isClassical (h : LinearForm g ks) : g.isClassical = true := by
  cases h with
  | flip hop => rcases hop with rfl | rfl <;> rfl
  | exchange => rfl
  | @diagonal op _ _ hop => cases op <;> simp_all [Gate.isClassical]

theorem foldl_onPattern_flip {control : Wire} {targets : List Wire}
    (h : control.index ∉ targets.map Wire.index) (x : Nat) :
    (targets.map fun w => (⟨control.index, w.index⟩ : Cnot)).foldl Cnot.onPattern x =
      x ^^^ if x.testBit control.index then mask targets else 0 := by
  induction targets generalizing x with
  | nil => simp [mask]
  | cons w targets ih =>
    obtain ⟨hw, htargets⟩ : control.index ≠ w.index ∧ control.index ∉ targets.map Wire.index := by
      simpa using h
    rw [List.map_cons, List.foldl_cons, ih htargets]
    -- The control keeps its value while the targets are flipped one by one.
    cases hbit : x.testBit control.index <;>
      simp [Cnot.onPattern, hbit, hw.symm, mask, Nat.xor_assoc]

theorem foldl_onPattern_exchange {v w : Wire} (hvw : v.index ≠ w.index) (x : Nat) :
    ([⟨v.index, w.index⟩, ⟨w.index, v.index⟩, ⟨v.index, w.index⟩] : List Cnot).foldl
        Cnot.onPattern x =
      x ^^^ if valueOf x v == valueOf x w then 0 else mask [v, w] := by
  have hwv := hvw.symm
  cases hv : x.testBit v.index <;> cases hw : x.testBit w.index <;>
    simp [Cnot.onPattern, valueOf, mask, hv, hw, hwv, Nat.xor_assoc,
      Nat.xor_comm (2 ^ w.index) (2 ^ v.index)]

/-- On patterns a linear gate acts as its CNOTs. -/
theorem LinearForm.foldl_onPattern (h : LinearForm g ks) (hg : g.WellPlaced n) (x : Nat) :
    ks.foldl Cnot.onPattern x = x ^^^ g.flips x := by
  cases h with
  | @flip op control targets hop hpositive =>
    rw [foldl_onPattern_flip hg.control_notMem]
    rcases hop with rfl | rfl <;> simp [flips, isActive, valueOf, hpositive]
  | exchange => exact foldl_onPattern_exchange hg.targets_ne x
  | @diagonal op _ _ hop =>
    cases op with
    | pauli axis => cases axis <;> simp_all [Operation.isDiagonal, Operation.diagonalPhase?, flips]
    | cx | mcx | swap => cases hop
    | _ => simp [flips]

/-- A list of gates acts on parities exactly when all of them are linear. -/
theorem foldlM_onParities_eq_ok_iff {gates : List Gate} {rows rows' : List Nat}
    (hgates : ∀ g ∈ gates, g.WellPlaced rows.length) :
    gates.foldlM onParities rows = .ok rows' ↔ (∀ g ∈ gates, g.cnots?.isSome = true) ∧
      Cnot.run rows (gates.flatMap cnots) = rows' := by
  induction gates generalizing rows with
  | nil => simp [pure, Except.pure]
  | cons g gates ih =>
    obtain ⟨hg, hgates⟩ := List.forall_mem_cons.mp hgates
    rw [List.foldlM_cons, onParities_eq hg, List.forall_mem_cons, List.flatMap_cons,
      Cnot.run_append, cnots]
    cases g.cnots? with
    | none => simp [bind, Except.bind]
    | some ks =>
      have hrest : ∀ g ∈ gates, g.WellPlaced (Cnot.run rows ks).length := by simpa using hgates
      simpa [bind, Except.bind] using ih hrest

theorem exists_of_foldlM_onParities_eq_error {gates : List Gate} {rows : List Nat}
    {e : SynthesisError} (hgates : ∀ g ∈ gates, g.WellPlaced rows.length)
    (h : gates.foldlM onParities rows = .error e) : ∃ g ∈ gates, e = .notLinear g := by
  induction gates generalizing rows with
  | nil => cases h
  | cons g gates ih =>
    obtain ⟨hg, hgates⟩ := List.forall_mem_cons.mp hgates
    rw [List.foldlM_cons, onParities_eq hg] at h
    cases hks : g.cnots? with
    | none =>
      rw [hks] at h
      cases h
      exact ⟨g, List.mem_cons_self, rfl⟩
    | some ks =>
      rw [hks] at h
      have hrest : ∀ g ∈ gates, g.WellPlaced (Cnot.run rows ks).length := by simpa using hgates
      obtain ⟨g', hg', rfl⟩ := ih hrest h
      exact ⟨g', List.mem_cons_of_mem _ hg', rfl⟩

/-- Linear gates move a pattern as their CNOTs do. -/
theorem foldl_advance_eq_foldl_onPattern {gates : List Gate}
    (hgates : ∀ g ∈ gates, g.WellPlaced n) (hlinear : ∀ g ∈ gates, g.cnots?.isSome = true)
    (s : Nat × Fin 8) :
    (gates.foldl advance s).1 =
      (gates.flatMap cnots).foldl Cnot.onPattern s.1 := by
  induction gates generalizing s with
  | nil => rfl
  | cons g gates ih =>
    obtain ⟨hg, hgates⟩ := List.forall_mem_cons.mp hgates
    obtain ⟨hsome, hlinear⟩ := List.forall_mem_cons.mp hlinear
    obtain ⟨ks, hks⟩ := Option.isSome_iff_exists.mp hsome
    have hstep := (linearForm_of_cnots? hks).foldl_onPattern hg s.1
    rw [List.foldl_cons, ih hgates hlinear, List.flatMap_cons, List.foldl_append, cnots, hks,
      Option.getD_some, hstep]
    rfl

end Gate

/-! ## Linear circuits -/

namespace Circuit

variable {c : Circuit} {M : BinaryMatrix}

theorem Admits.wellPlaced {g : Gate} (h : c.Admits g) : g.WellPlaced c.wireCount where
  nodup := h.nodup_indices
  lt := by
    refine List.forall_mem_map.mpr fun w hw => ?_
    obtain ⟨t, ht, -⟩ := exists_track_of_isSome (h.onWires w hw)
    exact (Array.getElem?_eq_some_iff.mp ht).1

/-- A circuit with a linear part consists of CNOTs, up to phases. -/
theorem exists_cnots_of_linearPart (hplaced : ∀ g ∈ c.liveGates, g.WellPlaced c.wireCount)
    (h : c.linearPart = .ok M) :
    ∃ ks : List Cnot, (∀ k ∈ ks, k.WellFormed c.wireCount) ∧
      Cnot.run (Bits.units c.wireCount) ks = M.rows ∧
      ∀ x, c.simulate x = .ok (ks.foldl Cnot.onPattern x) := by
  obtain ⟨hwidth, hrows⟩ := linearPart_eq_ok_iff.mp h
  obtain ⟨hlinear, hrun⟩ := (Gate.foldlM_onParities_eq_ok_iff (by simpa using hplaced)).mp hrows
  have hform (g : Gate) (hg : g ∈ c.liveGates) : Gate.LinearForm g g.cnots := by
    obtain ⟨ks, hks⟩ := Option.isSome_iff_exists.mp (hlinear g hg)
    rw [Gate.cnots, hks]
    exact Gate.linearForm_of_cnots? hks
  refine ⟨_, ?_, hrun, fun x => ?_⟩
  · intro k hk
    obtain ⟨g, hg, hk⟩ := List.mem_flatMap.mp hk
    exact (hform g hg).wellFormed (hplaced g hg) hk
  · exact (simulate_eq_ok_iff 0).mpr ⟨hwidth, fun g hg => (hform g hg).isClassical,
      Gate.foldl_advance_eq_foldl_onPattern hplaced hlinear (x, 0)⟩

/-- Only its width or one of its gates can keep a circuit from having a linear
part. -/
theorem of_linearPart_eq_error (hplaced : ∀ g ∈ c.liveGates, g.WellPlaced c.wireCount)
    {e : SynthesisError} (h : c.linearPart = .error e) :
    (Bits.wordSize < c.wireCount ∧ e = .tooManyQubits c.wireCount Bits.wordSize) ∨
      (c.wireCount ≤ Bits.wordSize ∧ ∃ g ∈ c.liveGates, e = .notLinear g) := by
  by_cases hwidth : c.wireCount ≤ Bits.wordSize
  · refine .inr ⟨hwidth, ?_⟩
    cases hrows : c.liveGates.foldlM Gate.onParities (Bits.units c.wireCount) with
    | ok rows =>
      have hpart := linearPart_of_foldlM hwidth hrows
      rw [h] at hpart
      cases hpart
    | error e' =>
      unfold linearPart at h
      rw [admitQubits_of_le hwidth, hrows] at h
      cases h
      exact Gate.exists_of_foldlM_onParities_eq_error (by simpa using hplaced) hrows
  · unfold linearPart at h
    rw [admitQubits, if_neg hwidth] at h
    cases h
    exact .inl ⟨Nat.lt_of_not_le hwidth, rfl⟩

/-- **Linear circuits.** If a reachable circuit computes a linear map, its
matrix is well formed and invertible and takes every pattern to the output of
the circuit. Otherwise the circuit is too wide or has a gate that is not
linear. -/
theorem linearPart_sound (hc : c.Reachable) :
    (∀ M, c.linearPart = .ok M →
      BinaryMatrix.ofRows M.rows = .ok M ∧ M.size = c.wireCount ∧ M.isInvertible = true ∧
        IsUnit (rowMatrix M.size M.rows) ∧
        ∀ x < 2 ^ c.wireCount, c.simulate x = .ok (M.apply x)) ∧
    ∀ e, c.linearPart = .error e →
      (Bits.wordSize < c.wireCount ∧ e = .tooManyQubits c.wireCount Bits.wordSize) ∨
      (c.wireCount ≤ Bits.wordSize ∧ ∃ g ∈ c.liveGates, e = .notLinear g) := by
  have hplaced : ∀ g ∈ c.liveGates, g.WellPlaced c.wireCount := fun g hg =>
    (hc.sound.admits_of_mem_liveGates hg).wellPlaced
  constructor
  · intro M hM
    have hsize := size_of_linearPart hM
    obtain ⟨ks, hks, hrun, hsimulate⟩ := exists_cnots_of_linearPart hplaced hM
    have hunit : IsUnit (rowMatrix M.size M.rows) := by
      rw [hsize, ← hrun]
      exact Cnot.isUnit_rowMatrix_run hks (Bits.length_units _) (by simp)
    refine ⟨BinaryMatrix.ofRows_eq_ok_iff.mpr ⟨rfl, wellFormed_linearPart hM⟩, hsize,
      isInvertible_iff_isUnit.mpr hunit, hunit, fun x hx => ?_⟩
    rw [hsimulate]
    have hcarries : PhaseStep.Carries x M.rows (ks.foldl Cnot.onPattern x) :=
      hrun ▸ Cnot.carries_run hks (Bits.length_units _) (PhaseStep.carries_units _ x)
    rw [hcarries.apply_eq (hsize ▸ Cnot.foldl_onPattern_lt hks hx)]
  · exact fun e he => of_linearPart_eq_error hplaced he

/-- Three qubits and a classical bit with a fan-out, an exchange, a phase and a
CNOT; the gate that is not linear is marked. -/
def fanOut : Circuit := ofHistory [.addWire .qubit, .addWire .qubit, .addWire .qubit,
  .addWire .cbit, .append (.mcx [.qubit 0] [.qubit 1, .qubit 2]),
  .append ⟨.hadamard, [], [.qubit 1]⟩, .append ⟨.swap, [], [.qubit 0, .qubit 2]⟩,
  .append ⟨.t, [], [.qubit 1]⟩, .append (.cx (.qubit 0) (.qubit 1)), .setMarked 9 true]

theorem linearPart_sound_fanOut :
    fanOut.Reachable ∧ fanOut.linearPart = .ok ⟨[5, 6, 1, 8]⟩ ∧
      BinaryMatrix.isInvertible ⟨[5, 6, 1, 8]⟩ = true ∧
      ∀ x < 2 ^ 4, fanOut.simulate x = .ok (BinaryMatrix.apply ⟨[5, 6, 1, 8]⟩ x) := by
  have hc : fanOut.Reachable := ⟨_, rfl⟩
  have hlinear : fanOut.linearPart = .ok ⟨[5, 6, 1, 8]⟩ := rfl
  obtain ⟨-, -, hinvertible, -, hsimulate⟩ := (linearPart_sound hc).1 _ hlinear
  exact ⟨hc, hlinear, hinvertible, hsimulate⟩

end Circuit

end CircuitSynthesis
