import CircuitSynthesis.Synthesis.Cascade
import CircuitSynthesis.Synthesis.Cnot
import CircuitSynthesis.Synthesis.ParityNetwork
import CircuitSynthesis.Synthesis.Staircase

/-!
# What can happen to a circuit

A request is one thing a caller may ask of a circuit. Requests can be refused,
and the circuit left behind then is part of the history like any other. The
reachable circuits are those that some list of requests leads to, from a
circuit without wires.
-/

namespace CircuitSynthesis

/-- One way to change a circuit. -/
inductive Request where
  /-- Declare a wire without label. -/
  | addWire (kind : Wire.Kind)
  | addNamedWire (kind : Wire.Kind) (label : String)
  /-- Append a gate built from its parts. -/
  | addGate (operation : Operation) (controls targets : List Wire)
  /-- Append a gate: a CNOT, a Toffoli gate, a rotation or any other. -/
  | append (gate : Gate)
  | setMarked (id : Nat) (value : Bool)
  | setVisited (id : Nat) (value : Bool)
  | clearVisited
  | rewire (map : List Nat)
  /-- Go on with the circuit without its marked gates. -/
  | compact
  | cascade (p : Placement) (f : ReversibleFunction) (direction : Direction)
  | cnot (p : Placement) (m : BinaryMatrix) (o : CnotOptions)
  | parityNetwork (p : Placement) (terms : PhasePolynomial) (o : ParityOptions)
  | staircase (p : Placement) (terms : PhasePolynomial) (order : WalkOrder)

namespace Request

/-- The circuit after a request, granted or not: whatever was done until the
request was refused is part of it. -/
def perform (c : Circuit) : Request → Circuit
  | addWire kind => (c.addWire kind none).1
  | addNamedWire kind label => stateAfter (Circuit.addNamedWire kind label) c
  | addGate operation controls targets => stateAfter (Circuit.addGate operation controls targets) c
  | append gate => stateAfter (Circuit.append gate) c
  | setMarked id value => stateAfter (Circuit.setMarked id value) c
  | setVisited id value => stateAfter (Circuit.setVisited id value) c
  | clearVisited => c.clearVisited
  | rewire map => stateAfter (Circuit.rewire map) c
  | compact => c.compact
  | cascade p f direction => (stateAfter (Cascade.edit p f.width direction) ⟨c, f.table⟩).circuit
  | cnot p m o => stateAfter (Cnot.edit p m o) c
  | parityNetwork p terms o => stateAfter (ParityNetwork.edit p terms o) c
  | staircase p terms order => stateAfter (Staircase.edit p terms order) c

end Request

namespace Circuit

/-- The circuit that a list of requests leads to. -/
def ofHistory (requests : List Request) : Circuit := requests.foldl Request.perform empty

/-- Some list of requests leads to the circuit. -/
def Reachable (c : Circuit) : Prop := ∃ requests, ofHistory requests = c

end Circuit

end CircuitSynthesis
