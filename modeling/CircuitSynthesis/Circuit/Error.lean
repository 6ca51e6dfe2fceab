import CircuitSynthesis.RangePermutation
import CircuitSynthesis.Wire

/-!
# Errors of circuit construction

Each cause carries what its message needs; the wording is settled once, in
`CircuitError.message`.
-/

namespace CircuitSynthesis

/-- Why a list is no wire permutation of a circuit. -/
inductive RewiringFault where
  | length (expected found : Nat)
  | entry (fault : RangeFault)
  deriving DecidableEq, Repr

/-- What is wrong with the structure of a circuit. Wires are given by name
and nodes by number. -/
inductive StructureFault where
  | cycle
  | start (wire : Wire)
  | finish (wire : Wire)
  | idle (node : Nat) (wire : Wire)
  | broken (wire : Wire) (before after : Nat)
  | edgeCount (expected found : Nat)
  | notGate (node : Nat)
  | incomplete (node : Nat)
  deriving DecidableEq, Repr

/-- Why a circuit operation was refused. -/
inductive CircuitError where
  /-- The operand counts do not fit the operation. -/
  | arity (gate : String) (controls targets : Nat)
  /-- An operand carries the wrong kind of information for its place. -/
  | wireKind (wire : Wire) (gate : String)
  /-- A wire does not belong to the circuit. -/
  | wireNotFound (wire : Wire) (gate : Option String)
  /-- A wire is used twice. -/
  | duplicateWire (wire : Wire) (gate : Option String)
  | labelTaken (label : String)
  | unknownNode
  | rewiring (fault : RewiringFault)
  | malformed (fault : StructureFault)
  deriving DecidableEq, Repr

def RewiringFault.message : RewiringFault → String
  | .length expected found => s!"expected {expected} entries, got {found}"
  | .entry (.repeated v) => s!"{v} appears twice"
  | .entry (.outOfRange v) => s!"{v} is out of range"

def StructureFault.message : StructureFault → String
  | .cycle => "graph contains a cycle"
  | .start w => s!"wire {w.text} does not start at its input"
  | .finish w => s!"wire {w.text} does not end at its output"
  | .idle node w => s!"node {node} on wire {w.text} does not act on it"
  | .broken w before after => s!"wire {w.text} is broken between nodes {before} and {after}"
  | .edgeCount expected found => s!"expected {expected} edges, found {found}"
  | .notGate node => s!"gate order refers to non-gate node {node}"
  | .incomplete node => s!"gate node {node} is missing from one of its wires"

/-- The gate an error arose at, in parentheses. -/
def CircuitError.atGate : Option String → String
  | none => ""
  | some gate => s!" (gate: {gate})"

def CircuitError.message : CircuitError → String
  | .arity gate controls targets =>
    s!"Gate '{gate}' does not accept {controls} control(s) and {targets} target(s)"
  | .wireKind w gate => s!"Wire {w.text} has the wrong kind for gate '{gate}'"
  | .wireNotFound w gate => s!"Wire {w.text} not found in network{CircuitError.atGate gate}"
  | .duplicateWire w gate => s!"Duplicate wire {w.text} in operation{CircuitError.atGate gate}"
  | .labelTaken label => s!"Wire label '{label}' is already in use"
  | .unknownNode => "Invalid node index"
  | .rewiring fault => s!"Invalid rewire map: {fault.message}"
  | .malformed fault => s!"Invalid network structure: {fault.message}"

end CircuitSynthesis
