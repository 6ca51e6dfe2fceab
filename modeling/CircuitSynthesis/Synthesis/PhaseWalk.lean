import CircuitSynthesis.PhasePolynomial
import CircuitSynthesis.Synthesis.Cnot

/-!
# Phases along a walk of CNOTs

As CNOTs act, the qubits carry changing parities of the inputs. Every term of
a phase polynomial is turned in the first time some qubit carries its parity:
before any CNOT for the parities of single qubits, and otherwise right after
the CNOT that reaches it.
-/

namespace CircuitSynthesis

/-- A step of a CNOT circuit with phases. -/
inductive PhaseStep where
  | cnot (gate : Cnot)
  | turn (angle : Angle) (qubit : Nat)
  deriving DecidableEq

namespace PhaseStep

/-- The gate on the wires of a placement. -/
def toGate (p : Placement) : PhaseStep → Gate
  | .cnot g => g.toGate p
  | .turn angle qubit => .rotationZ angle (p.wire qubit)

end PhaseStep

namespace PhaseWalk

/-- The turn of a term that is still pending, on the qubit that carries its
parity, and what is pending then. -/
def turnAt (pending : PhasePolynomial) (parity qubit : Nat) : List PhaseStep × PhasePolynomial :=
  match pending.get? parity with
  | some angle => ([.turn angle qubit], pending.erase parity)
  | none => ([], pending)

/-- The turns of the qubits from `qubit` on, before any CNOT. -/
def opening (pending : PhasePolynomial) : List Nat → List PhaseStep × PhasePolynomial
  | [] => ([], pending)
  | qubit :: rest =>
    let (turn, pending) := turnAt pending (2 ^ qubit) qubit
    let (steps, pending) := opening pending rest
    (turn ++ steps, pending)

/-- The CNOTs, each followed by the turn of the parity it reaches. -/
def along (pending : PhasePolynomial) (parities : List Nat) : List Cnot → List PhaseStep
  | [] => []
  | g :: rest =>
    let parities := Cnot.act parities g
    let (turn, pending) := turnAt pending (parities.getD g.target 0) g.target
    .cnot g :: turn ++ along pending parities rest

/-- CNOTs on `n` qubits with the turns of all nonzero terms that they reach. -/
def steps (n : Nat) (terms : PhasePolynomial) (gates : List Cnot) : List PhaseStep :=
  let (turns, pending) := opening terms.nonzero (List.range n)
  turns ++ along pending (Bits.units n) gates

end PhaseWalk

end CircuitSynthesis
