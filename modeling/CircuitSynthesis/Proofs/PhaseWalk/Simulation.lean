import CircuitSynthesis.Proofs.Circuit.Placement
import CircuitSynthesis.Proofs.Cnot.RowOperations
import CircuitSynthesis.Proofs.PhasePolynomial
import CircuitSynthesis.Simulation
import CircuitSynthesis.Synthesis.PhaseWalk

/-!
# Simulating CNOTs and turns

On the qubits of a fresh circuit a list of steps computes the linear map of
its CNOTs, and the phase it gives to a basis state is that of the parities at
which its turns happen (`phaseOf_eq`): a turn acts exactly when the parity
that its qubit carries at that moment has odd overlap with the state.
-/

namespace CircuitSynthesis

open PhasePolynomial (picked)

namespace PhaseStep

/-- A CNOT of two different qubits among the first `n`, or a turn of one. -/
def WellFormed (n : Nat) : PhaseStep → Prop
  | .cnot g => g.WellFormed n
  | .turn _ qubit => qubit < n

/-- The CNOTs among the steps. -/
def cnots : List PhaseStep → List Cnot
  | [] => []
  | .cnot g :: rest => g :: cnots rest
  | .turn _ _ :: rest => cnots rest

/-- The turns among the steps, each with the parity its qubit carries then. -/
def turns (parities : List Nat) : List PhaseStep → List (Nat × Angle)
  | [] => []
  | .cnot g :: rest => turns (Cnot.act parities g) rest
  | .turn angle qubit :: rest => (parities.getD qubit 0, angle) :: turns parities rest

@[simp] theorem cnots_append (first second : List PhaseStep) :
    cnots (first ++ second) = cnots first ++ cnots second := by
  induction first with
  | nil => rfl
  | cons s rest ih =>
    cases s with
    | cnot g => exact congrArg (g :: ·) ih
    | turn angle qubit => exact ih

@[simp] theorem cnots_map_cnot (gates : List Cnot) : cnots (gates.map .cnot) = gates := by
  induction gates with
  | nil => rfl
  | cons g rest ih => exact congrArg (g :: ·) ih

theorem turns_append (parities : List Nat) (first second : List PhaseStep) :
    turns parities (first ++ second) =
      turns parities first ++ turns (Cnot.run parities (cnots first)) second := by
  induction first generalizing parities with
  | nil => rfl
  | cons s rest ih =>
    cases s with
    | cnot g => exact ih _
    | turn angle qubit => exact congrArg ((parities.getD qubit 0, angle) :: ·) (ih _)

@[simp] theorem turns_map_cnot (parities : List Nat) (gates : List Cnot) :
    turns parities (gates.map .cnot) = [] := by
  induction gates generalizing parities with
  | nil => rfl
  | cons g rest ih => exact ih _

/-- Every step is a CNOT or a turn. -/
theorem length_eq_cnots_add_turns (parities : List Nat) (steps : List PhaseStep) :
    steps.length = (cnots steps).length + (turns parities steps).length := by
  induction steps generalizing parities with
  | nil => rfl
  | cons s rest ih =>
    cases s with
    | cnot g =>
      rw [List.length_cons, ih (Cnot.act parities g), cnots, turns, List.length_cons]
      omega
    | turn angle qubit =>
      rw [List.length_cons, ih parities, cnots, turns, List.length_cons]
      omega

/-- A circuit admits every step on a placement that it accepts. -/
theorem admits_toGate {c : Circuit} {p : Placement} {n : Nat} (hp : p.Fits c n) {s : PhaseStep}
    (hs : s.WellFormed n) : c.Admits (s.toGate p) := by
  cases s with
  | cnot g => exact hp.admits_cx hs.control_lt hs.target_lt hs.ne
  | turn angle qubit => exact hp.admits_rotationZ hs angle

/-! ## Parities -/

theorem onParities_toGate (n : Nat) (rows : List Nat) (s : PhaseStep) :
    Gate.onParities rows (s.toGate ((List.range n).map Wire.qubit)) =
      .ok (Cnot.run rows (cnots [s])) := by
  cases s with
  | cnot g =>
    rw [toGate, Cnot.toGate, Circuit.wire_ofQubits, Circuit.wire_ofQubits]
    rfl
  | turn angle qubit => rfl

theorem foldlM_onParities (n : Nat) (rows : List Nat) (steps : List PhaseStep) :
    (steps.map (toGate ((List.range n).map Wire.qubit))).foldlM Gate.onParities rows =
      .ok (Cnot.run rows (cnots steps)) := by
  induction steps generalizing rows with
  | nil => rfl
  | cons s rest ih =>
    rw [List.map_cons, List.foldlM_cons, onParities_toGate]
    show (rest.map _).foldlM _ (Cnot.run rows (cnots [s])) = _
    rw [ih, ← Cnot.run_append, ← cnots_append]
    rfl

/-- A circuit whose gates are steps on its qubits computes the map of its CNOTs. -/
theorem linearPart_eq {c : Circuit} {n : Nat} (hn : n ≤ Bits.wordSize) (hwires : c.wireCount = n)
    {steps : List PhaseStep}
    (hgates : c.liveGates = steps.map (toGate ((List.range n).map Wire.qubit))) :
    c.linearPart = .ok ⟨Cnot.run (Bits.units n) (cnots steps)⟩ := by
  unfold Circuit.linearPart
  rw [hwires, admitQubits_of_le hn, hgates]
  simp only [foldlM_onParities, bind, Except.bind]
  exact BinaryMatrix.ofRows_of_isSquare (Cnot.isSquare_run (isSquare_units n) _) hn

/-! ## Phases -/

/-- The pattern holds the values of the parities on the input `x`. -/
def Carries (x : Nat) (parities : List Nat) (pattern : Nat) : Prop :=
  ∀ i < parities.length, pattern.testBit i = Bits.oddOverlap (parities.getD i 0) x

theorem carries_units (n x : Nat) : Carries x (Bits.units n) x := by
  intro i hi
  rw [Bits.length_units] at hi
  rw [getD_units hi, Bits.oddOverlap_two_pow]

theorem Carries.act {n x : Nat} {parities : List Nat} {pattern : Nat}
    (h : Carries x parities pattern) (hlength : parities.length = n) {g : Cnot}
    (hg : g.WellFormed n) :
    Carries x (Cnot.act parities g)
      (if pattern.testBit g.control then pattern ^^^ 2 ^ g.target else pattern) := by
  have hcontrol := hg.control_lt
  have htarget := hg.target_lt
  have hc := h g.control (by omega)
  intro i hi
  rw [Cnot.length_act] at hi
  rw [Cnot.getD_act (by omega)]
  by_cases hit : i = g.target
  · rw [if_pos hit, Bits.oddOverlap_xor, ← hc, ← h g.target (by omega), hit]
    cases pattern.testBit g.control <;> simp
  · rw [if_neg hit, ← h i hi]
    have hne : ¬g.target = i := fun he => hit he.symm
    cases pattern.testBit g.control <;> simp [hne]

theorem onState_cnot (n : Nat) (pattern : Nat) (phase : Angle) (g : Cnot) :
    Gate.onState (pattern, phase) ((cnot g).toGate ((List.range n).map Wire.qubit)) =
      .ok (if pattern.testBit g.control then pattern ^^^ 2 ^ g.target else pattern, phase) := by
  rw [toGate, Cnot.toGate, Circuit.wire_ofQubits, Circuit.wire_ofQubits]
  have hactive : (Gate.cx (.qubit g.control) (.qubit g.target)).isActive pattern =
      pattern.testBit g.control := by
    simp [Gate.isActive, Gate.cx, Gate.valueOf]
  show Except.ok (if Gate.isActive _ pattern then Gate.flipAll _ pattern else pattern, phase) = _
  rw [hactive]
  rfl

theorem onState_turn (n : Nat) (pattern : Nat) (phase angle : Angle) (qubit : Nat) :
    Gate.onState (pattern, phase) ((turn angle qubit).toGate ((List.range n).map Wire.qubit)) =
      .ok (pattern, if pattern.testBit qubit then phase + angle else phase) := by
  rw [toGate, Circuit.wire_ofQubits]
  rfl

/-- From a pattern that holds the parities, the phase grows by the angles of
the turns whose parity is odd. -/
theorem foldlM_onState {n x : Nat} {steps : List PhaseStep} (hsteps : ∀ s ∈ steps, s.WellFormed n)
    {parities : List Nat} (hlength : parities.length = n) {pattern : Nat}
    (h : Carries x parities pattern) (phase : Angle) :
    ∃ pattern', (steps.map (toGate ((List.range n).map Wire.qubit))).foldlM Gate.onState
      (pattern, phase) = .ok (pattern', (picked x (turns parities steps)).foldl (· + ·) phase) := by
  induction steps generalizing parities pattern phase with
  | nil => exact ⟨pattern, rfl⟩
  | cons s rest ih =>
    have hs : s.WellFormed n := hsteps s List.mem_cons_self
    have hrest : ∀ s ∈ rest, s.WellFormed n := fun s hs => hsteps s (List.mem_cons_of_mem _ hs)
    rw [List.map_cons, List.foldlM_cons]
    cases s with
    | cnot g =>
      rw [onState_cnot]
      exact ih hrest (by rw [Cnot.length_act, hlength]) (h.act hlength hs) phase
    | turn angle qubit =>
      -- The pattern has a one at the qubit exactly when the parity there is odd.
      have hqubit : qubit < parities.length := by rw [hlength]; exact hs
      rw [onState_turn, h qubit hqubit, turns]
      obtain ⟨pattern', hrun⟩ := ih hrest hlength h
        (if Bits.oddOverlap (parities.getD qubit 0) x then phase + angle else phase)
      refine ⟨pattern', hrun.trans ?_⟩
      unfold picked
      rw [List.filter_cons]
      cases Bits.oddOverlap (parities.getD qubit 0) x <;> rfl

/-- A basis state picks up the angles of the turns at parities of odd overlap. -/
theorem phaseOf_eq {c : Circuit} {n : Nat} (hn : n ≤ Bits.wordSize) (hwires : c.wireCount = n)
    {steps : List PhaseStep} (hsteps : ∀ s ∈ steps, s.WellFormed n)
    (hgates : c.liveGates = steps.map (toGate ((List.range n).map Wire.qubit))) (x : Nat) :
    c.phaseOf x = .ok (Angle.sum (picked x (turns (Bits.units n) steps))) := by
  obtain ⟨pattern, hrun⟩ := foldlM_onState hsteps (Bits.length_units n) (carries_units n x) 0
  unfold Circuit.phaseOf
  rw [hwires, admitQubits_of_le hn, hgates]
  simp only [hrun, bind, Except.bind]
  rfl

end PhaseStep

end CircuitSynthesis
