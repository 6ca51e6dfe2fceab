import CircuitSynthesis.Synthesis.PhaseWalk

/-!
# Staircases for phase polynomials

Every qubit but the first is walked through all parities whose highest qubit
it is, and back to its own value, by CNOTs from the lower qubits. The walk
does not depend on the polynomial and leaves no linear effect behind.
-/

namespace CircuitSynthesis

namespace Staircase

/-- The reflected Gray code of `k`. -/
def grayCode (k : Nat) : Nat := k ^^^ k >>> 1

/-- The lowest position in a nonempty set. -/
def lowest (s : Nat) : Nat := ((List.range (s.log2 + 1)).find? s.testBit).getD 0

/-- The controls of the CNOTs that walk qubit `i` through its parities and
back. -/
def controls (order : WalkOrder) (i : Nat) : List Nat :=
  let low := 2 ^ i
  let high := 2 ^ (i + 1) - 1
  match order with
  | .gray =>
    (List.range' (low + 1) (high - low)).reverse.map
        (fun j => lowest (grayCode j ^^^ grayCode (j - 1))) ++
      [lowest (grayCode low ^^^ grayCode high)]
  | .binary =>
    (List.range (low - 1)).flatMap
        (fun k => (List.range i).filter ((k ^^^ (k + 1)).testBit ·)) ++
      List.range i

/-- The CNOTs that walk all of `n` qubits, the highest first. -/
def gates (order : WalkOrder) (n : Nat) : List Cnot :=
  (List.range' 1 (n - 1)).reverse.flatMap fun i => (controls order i).map (⟨·, i⟩)

/-- Largest supported number of qubits; a staircase visits `2 ^ n` parities. -/
def maxWidth : Nat := 24

/-- Append a staircase for a phase polynomial, parity bit `i` on qubit `i` of
the placement. Without terms nothing is appended or reported. -/
def edit (p : Placement) (terms : PhasePolynomial) (order : WalkOrder) : Edit (List Event) := do
  let n := p.length
  admitQubits maxWidth n
  p.check (← get) n
  terms.validate n
  if terms.isEmpty then return []
  let steps := PhaseWalk.steps n terms (gates order n)
  Edit.emitAll (steps.map (·.toGate p))
  return [.finished (.staircase order) steps.length]

/-- Append a staircase for a phase polynomial to a circuit. -/
def appendTo (c : Circuit) (p : Placement) (terms : PhasePolynomial) (order : WalkOrder) :
    Except SynthesisError Synthesized := (edit p terms order).apply c

/-- A staircase for a phase polynomial on `n` qubits of its own. -/
def synthesize (n : Nat) (terms : PhasePolynomial) (order : WalkOrder) :
    Except SynthesisError Synthesized := do
  admitQubits maxWidth n
  let c := Circuit.ofQubits n
  appendTo c c.qubits terms order

end Staircase

end CircuitSynthesis
