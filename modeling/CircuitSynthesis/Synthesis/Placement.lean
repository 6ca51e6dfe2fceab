import CircuitSynthesis.Synthesis.Edit

/-!
# Placing a synthesis result on qubits of a circuit

Engines work on qubits numbered from zero. A placement lists the wires of a
circuit that stand for them; it must name distinct qubits of the circuit, as
many as the problem has.
-/

namespace CircuitSynthesis

/-- The wires that stand for the qubits `0`, `1`, ... of a problem. -/
abbrev Placement := List Wire

namespace Placement

/-- The first wire that is not a qubit of the circuit or was named before. -/
def fault? (c : Circuit) (seen : List Wire) : List Wire → Option CircuitError
  | [] => none
  | w :: rest =>
    if !(c.track? w).any (·.declared.wire.isQubit) then some (.wireNotFound w none)
    else if seen.any (·.sameWire w) then some (.duplicateWire w none)
    else fault? c (w :: seen) rest

/-- Accept a placement of `count` qubits. -/
def check (c : Circuit) (p : Placement) (count : Nat) : Except SynthesisError Unit :=
  if p.length ≠ count then .error (.dimension count p.length)
  else match fault? c [] p with
    | some e => .error (.circuit e)
    | none => .ok ()

/-- The wire that stands for qubit `i`. -/
def wire (p : Placement) (i : Nat) : Wire := p.getD i (Wire.qubit i)

/-- The wires at the positions in `s`, lowest first, as positive operands. -/
def select (p : Placement) (s : Nat) : List Wire :=
  (p.zipIdx.filter fun (_, i) => s.testBit i).map fun (w, _) => w.positive

end Placement

end CircuitSynthesis
