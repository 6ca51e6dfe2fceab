import CircuitSynthesis.BinaryMatrix.Basic

/-!
# Gaussian elimination over GF(2)

Inverse and rank by one step for each column. Rows that carry a companion
entry (a row of the inverse, or their old position) are kept as pairs, so
that a row operation acts on both at once.
-/

namespace CircuitSynthesis.BinaryMatrix

/-- The first position from `start` on whose entry satisfies `p`. -/
def firstFrom? {α : Type} (p : α → Bool) (start : Nat) (l : List α) : Option Nat :=
  ((l.drop start).findIdx? p).map (start + ·)

/-- Column `col` of Gauss-Jordan elimination on pairs of rows: the first row
from `col` on with a one in the column moves to position `col` and is added
to every other row with a one there. -/
def jordanStep (pairs : List (Nat × Nat)) (col : Nat) : Option (List (Nat × Nat)) := do
  let pivot ← firstFrom? (·.1.testBit col) col pairs
  let swapped := swapEntries pairs col pivot
  let (a, b) := swapped.getD col (0, 0)
  return swapped.mapIdx fun r (x, y) =>
    if r ≠ col ∧ x.testBit col then (x ^^^ a, y ^^^ b) else (x, y)

/-- The rows of the inverse: what turns the rows of `m` into the identity
turns the identity into the inverse. -/
def inverseRows? (m : BinaryMatrix) : Option (List Nat) :=
  let start := m.rows.zip (Bits.units m.size)
  ((List.range m.size).foldlM jordanStep start).map (·.map Prod.snd)

/-- The inverse over GF(2). -/
def inverse (m : BinaryMatrix) : Except SynthesisError BinaryMatrix :=
  match m.inverseRows? with
  | some rows => .ok ⟨rows⟩
  | none => .error .singular

/-- Column `col` of forward elimination: if a row from position `found` on
has a one in the column, it moves there and is added to the later rows with
a one in the column, and one more pivot is found. -/
def forwardStep : Nat × List Nat → Nat → Nat × List Nat
  | (found, rows), col =>
    match firstFrom? (·.testBit col) found rows with
    | none => (found, rows)
    | some pivot =>
      let swapped := swapEntries rows found pivot
      let a := swapped.getD found 0
      (found + 1, swapped.mapIdx fun r x => if found < r ∧ x.testBit col then x ^^^ a else x)

/-- The number of pivots of forward elimination. -/
def rank (m : BinaryMatrix) : Nat := ((List.range m.size).foldl forwardStep (0, m.rows)).1

/-- The matrix has full rank. -/
def isInvertible (m : BinaryMatrix) : Bool := m.rank == m.size

end CircuitSynthesis.BinaryMatrix
