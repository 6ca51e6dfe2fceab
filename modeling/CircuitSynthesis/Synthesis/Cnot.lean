import CircuitSynthesis.BinaryMatrix.Elimination
import CircuitSynthesis.Synthesis.Placement

/-!
# CNOT circuits for linear maps

A matrix is brought to upper triangular form by row additions, a block of
columns at a time. Within a block, rows that agree on it are first cancelled
against the first of them, then ordinary elimination clears what remains. The
transpose of the upper triangle goes through the same routine, and the two
lists of additions are joined to a circuit.
-/

namespace CircuitSynthesis

/-- Add the parity on the control to the target. -/
structure Cnot where
  control : Nat
  target : Nat
  deriving DecidableEq, Repr

namespace Cnot

/-- The action on the parities carried by the qubits. -/
def act (rows : List Nat) (g : Cnot) : List Nat := addRow rows g.target g.control

/-- The parities after a list of gates. -/
def run (rows : List Nat) (gates : List Cnot) : List Nat := gates.foldl act rows

/-- Control and target exchanged. -/
def flip (g : Cnot) : Cnot := ⟨g.target, g.control⟩

/-- The gate on the wires of a placement. -/
def toGate (p : Placement) (g : Cnot) : Gate := .cx (p.wire g.control) (p.wire g.target)

/-! ## Elimination in blocks -/

/-- Rows under elimination and the additions performed, the last one first. -/
structure Progress where
  rows : List Nat
  performed : List Cnot

namespace Progress

def perform (s : Progress) (g : Cnot) : Progress := ⟨act s.rows g, g :: s.performed⟩

/-- Bit `col` of row `row`. -/
def bit (s : Progress) (row col : Nat) : Bool := (s.rows.getD row 0).testBit col

/-- Cancel a row against the first row with the same nonzero pattern in the
block, or remember it as the first. -/
def cancelRow (start width : Nat) :
    Progress × List (Nat × Nat) → Nat → Progress × List (Nat × Nat)
  | (s, firsts), row =>
    let pattern := (s.rows.getD row 0 >>> start) % 2 ^ width
    if pattern = 0 then (s, firsts)
    else match firsts.lookup pattern with
      | none => (s, (pattern, row) :: firsts)
      | some first => (s.perform ⟨first, row⟩, firsts)

/-- Clear one entry below the diagonal. If the diagonal is still zero, the
row is added to it first. -/
def clearEntry (col : Nat) : Progress × Bool → Nat → Progress × Bool
  | (s, diagonal), row =>
    if s.bit row col then
      let s := if diagonal then s else s.perform ⟨row, col⟩
      (s.perform ⟨col, row⟩, true)
    else (s, diagonal)

/-- Clear a column below the diagonal; fails when the diagonal stays zero. -/
def clearColumn (s : Progress) (col : Nat) : Option Progress :=
  let below := List.range' (col + 1) (s.rows.length - (col + 1))
  match below.foldl (clearEntry col) (s, s.bit col col) with
  | (s, true) => some s
  | (_, false) => none

/-- Eliminate a block of columns. -/
def clearBlock (width : Nat) (s : Progress) (start : Nat) : Option Progress :=
  let n := s.rows.length
  let (s, _) := (List.range' start (n - start)).foldl (cancelRow start width) (s, [])
  (List.range' start (min (start + width) n - start)).foldlM clearColumn s

end Progress

/-- The first columns of the blocks of `n` columns. -/
def blockStarts (n width : Nat) : List Nat := (List.range ((n + width - 1) / width)).map (· * width)

/-- Bring rows to upper triangular form. -/
def triangulate (width : Nat) (rows : List Nat) : Option Progress :=
  (blockStarts rows.length width).foldlM (Progress.clearBlock width) ⟨rows, []⟩

/-- Rows in upper triangular form, or the error for a matrix without inverse. -/
def triangular (width : Nat) (rows : List Nat) : Except SynthesisError Progress :=
  match triangulate width rows with
  | some s => .ok s
  | none => .error .singular

/-- CNOTs that turn the unit parities into the rows of a matrix. -/
def forMatrix (m : BinaryMatrix) (partitionSize : Nat) : Except SynthesisError (List Cnot) :=
  if partitionSize = 0 then .error (.partitionSize partitionSize)
  else if m.size = 0 then .ok []
  else do
    let width := min partitionSize m.size
    let lower ← triangular width m.rows
    let triangle ← BinaryMatrix.ofRows lower.rows
    let upper ← triangular width triangle.transpose.rows
    return upper.performed.reverse.map flip ++ lower.performed

/-! ## Row orders -/

/-- Column `col` of forward elimination on rows paired with their position. -/
def orderStep (pairs : List (Nat × Nat)) (col : Nat) : Option (List (Nat × Nat)) := do
  let pivot ← BinaryMatrix.firstFrom? (·.1.testBit col) col pairs
  let swapped := swapEntries pairs col pivot
  let (a, _) := swapped.getD col (0, 0)
  return swapped.mapIdx fun r (x, i) => if col < r ∧ x.testBit col then (x ^^^ a, i) else (x, i)

/-- A row order in which elimination never meets a zero on the diagonal:
entry `p` is the row that should stand at position `p`. -/
def eliminationOrder (m : BinaryMatrix) : Except SynthesisError (List Nat) :=
  match (List.range m.size).foldlM orderStep (m.rows.zip (List.range m.size)) with
  | some pairs => .ok (pairs.map Prod.snd)
  | none => .error .singular

/-! ## Recipes -/

/-- The CNOTs chosen for a matrix, and the row order they deliver it in. -/
structure Recipe where
  gates : List Cnot
  order : Option (List Nat)
  events : List Event

/-- The shortest of two candidates, the first one on a tie. -/
def shorter (best : Option (Nat × List Cnot)) (size : Nat) (gates : List Cnot) :
    Option (Nat × List Cnot) :=
  match best with
  | some (s, b) => if gates.length < b.length then some (size, gates) else some (s, b)
  | none => some (size, gates)

/-- The smallest partition size that needs the fewest CNOTs, with these. -/
def bestPartition (m : BinaryMatrix) : Except SynthesisError (Option (Nat × List Cnot)) :=
  (List.range' 1 m.size).foldlM (fun best size => (forMatrix m size).map (shorter best size)) none

/-- CNOTs for a matrix as the options ask for them. -/
def chooseGates (m : BinaryMatrix) (o : CnotOptions) :
    Except SynthesisError (List Cnot × List Event) := do
  if o.searchPartition then
    match ← bestPartition m with
    | some (size, gates) => return (gates, [.partitionChosen size gates.length])
    | none => return ([], [])
  else return (← forMatrix m o.partitionSize, [])

/-- Settle row order and CNOTs for a matrix. -/
def recipe (m : BinaryMatrix) (o : CnotOptions) : Except SynthesisError Recipe := do
  o.validate
  if !m.isInvertible then throw .singular
  if o.allowRewiring then
    let order ← eliminationOrder m
    let (gates, events) ← chooseGates (← m.gatherRows order) o
    return ⟨gates, some order, .rowsReordered order :: events⟩
  else
    let (gates, events) ← chooseGates m o
    return ⟨gates, none, events⟩

/-- Compose the wire permutation with a row order on the placed qubits. -/
def composeOrder (rewiring : List Nat) (p : Placement) (order : List Nat) : List Nat :=
  (p.zip order).foldl
    (fun map (w, r) => map.set w.index (rewiring.getD (p.wire r).index 0)) rewiring

/-- Append CNOTs for a matrix, then compose the wire permutation with the row
order that they deliver it in. -/
def edit (p : Placement) (m : BinaryMatrix) (o : CnotOptions) : Edit (List Event) := do
  let c ← get
  p.check c m.size
  let recipe ← recipe m o
  Edit.emitAll (recipe.gates.map (·.toGate p))
  Edit.rewire? (recipe.order.map (composeOrder c.rewiring p))
  return recipe.events ++ [.finished .cnot recipe.gates.length]

/-- Append CNOTs for a matrix to a circuit. -/
def appendTo (c : Circuit) (p : Placement) (m : BinaryMatrix) (o : CnotOptions) :
    Except SynthesisError Synthesized := (edit p m o).apply c

/-- A circuit for a matrix on qubits of its own. -/
def synthesize (m : BinaryMatrix) (o : CnotOptions) : Except SynthesisError Synthesized :=
  let c := Circuit.ofQubits m.size
  appendTo c c.qubits m o

end Cnot

end CircuitSynthesis
