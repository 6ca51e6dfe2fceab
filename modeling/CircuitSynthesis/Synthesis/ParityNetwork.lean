import CircuitSynthesis.Synthesis.PhaseWalk

/-!
# Parity networks for phase polynomials

The parities are split recursively on the qubit that divides them most
unevenly. Once a branch has a target qubit, CNOTs fold every other qubit that
all parities of the branch share into it. Parities that are still to come are
adjusted to each CNOT, so that they always refer to what the qubits carry.
The linear map left over in the end is corrected by CNOT synthesis.
-/

namespace CircuitSynthesis

namespace ParityNetwork

/-- A parity in terms of what the qubits carry after a CNOT. -/
def adjustParity (g : Cnot) (parity : Nat) : Nat :=
  if parity.testBit g.target then parity ^^^ 2 ^ g.control else parity

/-- Parities in terms of what the qubits carry after a list of CNOTs. -/
def adjustAll (gates : List Cnot) (parities : List Nat) : List Nat :=
  gates.foldl (fun ps g => ps.map (adjustParity g)) parities

/-- Fold qubit `j` into the target if all parities use it. -/
def foldQubit (target : Nat) : List Cnot × List Nat → Nat → List Cnot × List Nat
  | (gates, parities), j =>
    if j ≠ target ∧ parities.all (·.testBit j) then
      (gates ++ [⟨j, target⟩], parities.map (adjustParity ⟨j, target⟩))
    else (gates, parities)

/-- Fold all shared qubits of `n` into the target, if there is one yet. -/
def foldShared (n : Nat) (target : Option Nat) (parities : List Nat) : List Cnot × List Nat :=
  match target with
  | some t => (List.range n).foldl (foldQubit t) ([], parities)
  | none => ([], parities)

/-- How many parities fall on the larger side of a split at `row`. -/
def largerSide (parities : List Nat) (row : Nat) : Nat :=
  let ones := parities.countP (·.testBit row)
  max ones (parities.length - ones)

/-- The first row that splits the parities most unevenly. -/
def splitRow? (parities : List Nat) : List Nat → Option Nat
  | [] => none
  | row :: rest =>
    match splitRow? parities rest with
    | some best => if largerSide parities row < largerSide parities best then some best else some row
    | none => some row

theorem splitRow?_mem {parities rows : List Nat} {row : Nat}
    (h : splitRow? parities rows = some row) : row ∈ rows := by
  induction rows with
  | nil => simp [splitRow?] at h
  | cons first rest ih =>
    rw [splitRow?] at h
    split at h
    · next best hbest =>
      split at h
      · cases h
        exact List.mem_cons_of_mem _ (ih hbest)
      · cases h
        exact List.mem_cons_self
    · cases h
      exact List.mem_cons_self

/-- CNOTs on `n` qubits after which every parity has appeared on some qubit.
The parities without the splitting row come first; those with it get the row
as their target, unless they already have one. -/
def cover (n : Nat) (rows : List Nat) (target : Option Nat) (parities : List Nat) : List Cnot :=
  if parities.isEmpty then []
  else
    let (folds, parities) := foldShared n target parities
    match h : splitRow? parities rows with
    | none => folds
    | some row =>
      have : (rows.erase row).length < rows.length := by
        have hmem := splitRow?_mem h
        rw [List.length_erase_of_mem hmem]
        have := List.length_pos_of_mem hmem
        omega
      let (ones, zeros) := parities.partition (·.testBit row)
      let before := cover n (rows.erase row) target zeros
      let after := cover n (rows.erase row) (target <|> some row) (adjustAll before ones)
      folds ++ before ++ after
termination_by rows.length

/-- CNOTs on `n` qubits that make every parity appear on some qubit. -/
def gates (n : Nat) (parities : List Nat) : List Cnot := cover n (List.range n) none parities

/-- Largest supported number of qubits. -/
def maxWidth : Nat := BinaryMatrix.maxSize

/-- The linear map the qubits must carry at the end. -/
def goal (o : ParityOptions) (n : Nat) : Except SynthesisError BinaryMatrix := do
  let goal ← match o.transform with
    | some m => if m.size ≠ n then throw (.dimension n m.size) else pure m
    | none => BinaryMatrix.identity n
  if !goal.isInvertible then throw .singular
  return goal

/-- Append a parity network for a phase polynomial, parity bit `i` on qubit
`i` of the placement, and CNOTs for the linear map that is missing then. -/
def edit (p : Placement) (terms : PhasePolynomial) (o : ParityOptions) : Edit (List Event) := do
  let n := p.length
  admitQubits maxWidth n
  p.check (← get) n
  terms.validate n
  let goal ← goal o n
  o.cnot.validate
  let gates := gates n terms.nonzero.masks
  let steps := PhaseWalk.steps n terms gates
  Edit.emitAll (steps.map (·.toGate p))
  let reached ← BinaryMatrix.ofRows (Cnot.run (Bits.units n) gates)
  let residual ← goal.mul (← reached.inverse)
  if residual.isIdentity then
    return [.parityNetworkPlanned gates.length, .finished .parity steps.length]
  else
    let before := (← get).gateCount
    let corrections ← Cnot.edit p residual o.cnot
    let count := steps.length + ((← get).gateCount - before)
    return .parityNetworkPlanned gates.length :: .residualMap residual :: corrections ++
      [.finished .parity count]

/-- Append a parity network for a phase polynomial to a circuit. -/
def appendTo (c : Circuit) (p : Placement) (terms : PhasePolynomial) (o : ParityOptions) :
    Except SynthesisError Synthesized := (edit p terms o).apply c

/-- A circuit for a phase polynomial on `n` qubits of its own. -/
def synthesize (n : Nat) (terms : PhasePolynomial) (o : ParityOptions) :
    Except SynthesisError Synthesized := do
  admitQubits maxWidth n
  let c := Circuit.ofQubits n
  appendTo c c.qubits terms o

end ParityNetwork

end CircuitSynthesis
