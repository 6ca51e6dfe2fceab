import CircuitSynthesis.BinaryMatrix.Basic

/-!
# Options of the synthesis engines
-/

namespace CircuitSynthesis

/-- Which side of a truth table a Toffoli cascade may work on. -/
inductive Direction where
  /-- The output side only. -/
  | unidirectional
  /-- For each row the side that is cheaper. -/
  | bidirectional
  /-- Both sides, after choosing the row that is cheapest to bring into place. -/
  | multidirectional
  deriving DecidableEq, Repr

/-- How the elimination behind CNOT synthesis proceeds. -/
structure CnotOptions where
  /-- Columns eliminated at a time. -/
  partitionSize : Nat
  /-- Try every partition size and keep the cheapest. -/
  searchPartition : Bool
  /-- Deliver the matrix up to a wire permutation. -/
  allowRewiring : Bool
  deriving DecidableEq, Repr

def CnotOptions.default : CnotOptions := ⟨2, false, false⟩

/-- The partition size is positive wherever it is used. -/
def CnotOptions.isUsable (o : CnotOptions) : Bool := o.searchPartition || o.partitionSize != 0

/-- Accept a usable partition size. -/
def CnotOptions.validate (o : CnotOptions) : Except SynthesisError Unit :=
  if o.isUsable then .ok () else .error (.partitionSize o.partitionSize)

/-- What a parity network leaves on its qubits besides the phases. -/
structure ParityOptions where
  /-- The linear map at the end; the identity when there is none. -/
  transform : Option BinaryMatrix
  /-- Used for the linear map that the parity network does not reach itself. -/
  cnot : CnotOptions
  deriving DecidableEq, Repr

def ParityOptions.default : ParityOptions := ⟨none, .default⟩

/-- The order in which a staircase visits the parities of a qubit. -/
inductive WalkOrder where
  /-- Counting upwards, with a CNOT for each flipped bit. -/
  | binary
  /-- Reflected Gray code, with a CNOT for each step. -/
  | gray
  deriving DecidableEq, Repr

/-- Options of all engines. -/
structure Settings where
  direction : Direction
  cnot : CnotOptions
  walk : WalkOrder
  deriving DecidableEq, Repr

def Settings.default : Settings := ⟨.unidirectional, .default, .gray⟩

end CircuitSynthesis
