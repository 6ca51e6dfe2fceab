import CircuitSynthesis.Bits
import CircuitSynthesis.InPlace
import CircuitSynthesis.Synthesis.Error

/-!
# Square matrices over GF(2)

A matrix is the list of its rows, each a bit set of columns. As a linear map
on bit patterns, output bit `i` is the parity of row `i` on the input. A well
formed matrix has at most as many rows as a machine word has bits, and its
rows only use columns below its size.
-/

namespace CircuitSynthesis

/-- Row `dst` becomes its sum with row `src`; rows out of range count as zero. -/
def addRow (rows : List Nat) (dst src : Nat) : List Nat :=
  rows.set dst (rows.getD dst 0 ^^^ rows.getD src 0)

/-- Exchange two entries; nothing happens when one is out of range. -/
def swapEntries {α : Type} (l : List α) (a b : Nat) : List α :=
  match l[a]?, l[b]? with
  | some x, some y => (l.set a y).set b x
  | _, _ => l

/-- The sum of the rows at the positions in `s`. -/
def combination : List Nat → Nat → Nat
  | [], _ => 0
  | row :: rest, s => (if s.testBit 0 then row else 0) ^^^ combination rest (s >>> 1)

/-- A matrix over GF(2), by rows. -/
structure BinaryMatrix where
  rows : List Nat
  deriving DecidableEq, Repr

namespace BinaryMatrix

/-- Largest supported number of rows. -/
def maxSize : Nat := Bits.wordSize

/-- Number of rows and of columns. -/
def size (m : BinaryMatrix) : Nat := m.rows.length

/-- Not too many rows, and no row reaches beyond the last column. -/
structure WellFormed (m : BinaryMatrix) : Prop where
  size_le : m.size ≤ maxSize
  row_lt : ∀ row ∈ m.rows, row < 2 ^ m.size

/-- Row `i`, or zero out of range. -/
def row (m : BinaryMatrix) (i : Nat) : Nat := m.rows.getD i 0

/-- The identity of size `n`. -/
def identity (n : Nat) : Except SynthesisError BinaryMatrix := do
  admitQubits maxSize n
  return ⟨Bits.units n⟩

/-- A matrix from its rows; the first row that is too wide is reported. -/
def ofRows (rows : List Nat) : Except SynthesisError BinaryMatrix := do
  admitQubits maxSize rows.length
  match rows.findIdx? (fun row => !Bits.fits rows.length row) with
  | some i => throw (.rowOutOfRange i rows.length)
  | none => return ⟨rows⟩

/-- Row `i`, if there is one. -/
def row? (m : BinaryMatrix) (i : Nat) : Option Nat := m.rows[i]?

/-- Entry `(i, j)`, if there is a row `i`. -/
def entry? (m : BinaryMatrix) (i j : Nat) : Option Bool := (m.row? i).map (·.testBit j)

/-- The matrix with another entry `(i, j)`. -/
def withEntry (m : BinaryMatrix) (i j : Nat) (value : Bool) : BinaryMatrix :=
  let cleared := m.row i ^^^ (m.row i &&& 2 ^ j)
  ⟨m.rows.set i (if value then cleared ||| 2 ^ j else cleared)⟩

/-- Set entry `(i, j)` in place. -/
def set (i j : Nat) (value : Bool) : EStateM SynthesisError BinaryMatrix Unit := do
  let m ← get
  if i < m.size ∧ j < m.size then modify (·.withEntry i j value)
  else throw (.rowOutOfRange i m.size)

/-- Add row `src` to row `dst`, if there are such rows. -/
def addRow? (m : BinaryMatrix) (dst src : Nat) : Option BinaryMatrix :=
  if dst < m.size ∧ src < m.size then some ⟨addRow m.rows dst src⟩ else none

/-- Exchange two rows, if there are such rows. -/
def swapRows? (m : BinaryMatrix) (a b : Nat) : Option BinaryMatrix :=
  if a < m.size ∧ b < m.size then some ⟨swapEntries m.rows a b⟩ else none

/-- Accept a permutation of the rows of a matrix of size `n`. -/
def admitOrder (order : List Nat) (n : Nat) : Except SynthesisError Unit :=
  if order.length ≠ n then .error (.dimension n order.length)
  else if (RangePermutation.firstFault n order).isSome then .error (.invalidOrder order)
  else .ok ()

/-- The matrix whose row `p` is row `order[p]` of `m`. -/
def gatherRows (m : BinaryMatrix) (order : List Nat) : Except SynthesisError BinaryMatrix := do
  admitOrder order m.size
  return ⟨order.map m.row⟩

/-- Row `p` of `m`, written to place `order[p]`. -/
def scattered (m : BinaryMatrix) (order : List Nat) : List Nat :=
  (order.zip m.rows).foldl (fun rows w => rows.set w.1 w.2) (List.replicate m.size 0)

/-- The matrix whose row `order[p]` is row `p` of `m`. -/
def scatterRows (m : BinaryMatrix) (order : List Nat) : Except SynthesisError BinaryMatrix := do
  admitOrder order m.size
  ofRows (m.scattered order)

/-- The transpose. -/
def transpose (m : BinaryMatrix) : BinaryMatrix :=
  ⟨(List.range m.size).map fun j => Bits.ofPredicate m.size fun i => (m.row i).testBit j⟩

/-- The product `m * m'`. -/
def mul (m m' : BinaryMatrix) : Except SynthesisError BinaryMatrix :=
  if m.size = m'.size then .ok ⟨m.rows.map (combination m'.rows)⟩
  else .error (.dimension m.size m'.size)

/-- The image of a bit pattern. -/
def apply (m : BinaryMatrix) (x : Nat) : Nat :=
  Bits.ofPredicate m.size fun i => Bits.oddOverlap (m.row i) x

def isIdentity (m : BinaryMatrix) : Bool := m.rows == Bits.units m.size

/-- The entries as zeros and ones, a line for each row. -/
def text (m : BinaryMatrix) : String :=
  let line (row : Nat) : String :=
    String.ofList ((List.range m.size).map fun j => if row.testBit j then '1' else '0')
  "\n".intercalate (m.rows.map line)

/-- Rows are accepted exactly when they make a well formed matrix. -/
theorem ofRows_eq_ok_iff {rows : List Nat} {m : BinaryMatrix} :
    ofRows rows = .ok m ↔ m.rows = rows ∧ m.WellFormed := by
  have hfit : rows.findIdx? (fun row => !Bits.fits rows.length row) = none ↔
      ∀ row ∈ rows, row < 2 ^ rows.length := by
    simp [List.findIdx?_eq_none_iff, Bits.fits_iff]
  unfold ofRows admitQubits
  by_cases hs : rows.length ≤ maxSize
  · rw [if_pos hs]
    cases hf : rows.findIdx? (fun row => !Bits.fits rows.length row) with
    | none =>
      have hlt := hfit.1 hf
      constructor
      · rintro ⟨⟩
        exact ⟨rfl, hs, hlt⟩
      · rintro ⟨rfl, -⟩
        rfl
    | some i =>
      constructor
      · rintro ⟨⟩
      · rintro ⟨rfl, hw⟩
        simp [hfit.2 hw.row_lt] at hf
  · rw [if_neg hs]
    constructor
    · rintro ⟨⟩
    · rintro ⟨rfl, hw⟩
      exact absurd hw.size_le hs

end BinaryMatrix

end CircuitSynthesis
