import CircuitSynthesis.Gate.Basic

/-!
# Errors of synthesis and simulation
-/

namespace CircuitSynthesis

/-- Why a matrix, table, polynomial, simulation or synthesis was refused. -/
inductive SynthesisError where
  | circuit (cause : CircuitError)
  /-- A table repeats a value, so some other value is missing. -/
  | repeatedValue (value : Nat)
  | valueOutOfRange (value length : Nat)
  /-- A table whose length is not a power of two, or too large. -/
  | tableLength (length : Nat)
  | singular
  | partitionSize (size : Nat)
  /-- Two inputs disagree on the problem size. -/
  | dimension (expected found : Nat)
  | rowOutOfRange (row size : Nat)
  /-- A parity that is zero or uses qubits beyond the width. -/
  | invalidParity (mask width : Nat)
  | tooManyQubits (found limit : Nat)
  | notClassical (gate : Gate)
  | notLinear (gate : Gate)
  /-- A row order that is no permutation of the rows. -/
  | invalidOrder (order : List Nat)
  /-- A document that is not a description of settings. -/
  | unreadableSettings
  deriving DecidableEq

/-- Numbers in brackets, divided by commas. -/
def bracketed (values : List Nat) : String :=
  "[" ++ ", ".intercalate (values.map toString) ++ "]"

/-- Binary digits with a leading `0b`. -/
def binaryText (n : Nat) : String := "0b" ++ String.ofList (Nat.toDigits 2 n)

namespace SynthesisError

def message : SynthesisError → String
  | .circuit cause => s!"IR error: {cause.message}"
  | .repeatedValue value =>
    s!"Permutation is not a bijection: value {value} appears more than once"
  | .valueOutOfRange value length =>
    s!"Permutation value {value} is out of range for length {length}"
  | .tableLength length => s!"Permutation length {length} is not a supported power of two"
  | .singular => "Matrix is not invertible over GF(2)"
  | .partitionSize size => s!"Partition size must be at least 1, got {size}"
  | .dimension expected found => s!"Dimension mismatch: expected {expected}, got {found}"
  | .rowOutOfRange row size => s!"Row {row} has bits outside the {size}x{size} matrix"
  | .invalidParity mask width => s!"Parity mask {binaryText mask} is invalid for {width} qubits"
  | .tooManyQubits found limit => s!"{found} qubits requested, at most {limit} supported"
  | .notClassical gate => s!"Gate '{gate.text}' is not classical"
  | .notLinear gate => s!"Gate '{gate.text}' is not linear over GF(2)"
  | .invalidOrder order =>
    s!"Invalid synthesis configuration: row order {bracketed order} is not a permutation"
  | .unreadableSettings => "Invalid synthesis configuration: not a settings document"

end SynthesisError

/-- Refuse more than `limit` qubits. -/
def admitQubits (limit width : Nat) : Except SynthesisError Unit :=
  if width ≤ limit then .ok () else .error (.tooManyQubits width limit)

end CircuitSynthesis
