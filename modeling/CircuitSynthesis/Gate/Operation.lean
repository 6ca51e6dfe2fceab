import CircuitSynthesis.Angle
import CircuitSynthesis.Wire

/-!
# Operations

What a gate does to its operands: its name, the operand counts it takes, the
phase it applies when it is diagonal, and its inverse.
-/

namespace CircuitSynthesis

/-- An axis of the Bloch sphere. -/
inductive Axis where
  | x
  | y
  | z
  deriving DecidableEq, Repr

/-- The letter of the axis. -/
def Axis.letter : Axis → String
  | .x => "x"
  | .y => "y"
  | .z => "z"

/-- An operation on qubits. -/
inductive Operation where
  | identity
  | hadamard
  | pauli (axis : Axis)
  /-- A quarter turn of phase. -/
  | s
  | sDagger
  /-- An eighth turn of phase. -/
  | t
  | tDagger
  | rotation (axis : Axis) (angle : Angle)
  /-- Flip the target if the control is active. -/
  | cx
  | cz
  /-- Flip every target if all controls are active. -/
  | mcx
  | mcz
  | swap
  /-- Measure a qubit into a classical bit. -/
  | measure
  deriving DecidableEq

namespace Operation

def name : Operation → String
  | .identity => "id"
  | .hadamard => "h"
  | .pauli axis => axis.letter
  | .s => "s"
  | .sDagger => "sdg"
  | .t => "t"
  | .tDagger => "tdg"
  | .rotation axis _ => "r" ++ axis.letter
  | .cx => "cx"
  | .cz => "cz"
  | .mcx => "mcx"
  | .mcz => "mcz"
  | .swap => "swap"
  | .measure => "measure"

/-- The angle of a rotation. -/
def angle? : Operation → Option Angle
  | .rotation _ a => some a
  | _ => none

/-- The operation takes this many controls and targets. -/
def accepts : Operation → Nat → Nat → Bool
  | .cx, controls, targets | .cz, controls, targets => controls == 1 && targets == 1
  | .mcx, _, targets | .mcz, _, targets => 1 ≤ targets
  | .swap, controls, targets | .measure, controls, targets => controls == 0 && targets == 2
  | _, controls, targets => controls == 0 && targets == 1

/-- The kind of wire expected at a position, counted over controls and then
targets: a measurement writes to a classical bit, all else acts on qubits. -/
def operandKind : Operation → Nat → Wire.Kind
  | .measure, 1 => .cbit
  | _, _ => .qubit

/-- Doing the operation twice does nothing, whatever its parameters. -/
def isSelfInverse : Operation → Bool
  | .identity | .hadamard | .pauli _ | .cx | .cz | .mcx | .mcz | .swap => true
  | _ => false

/-- The phase given to the states in which all controls are active and a
target is one. -/
def diagonalPhase? : Operation → Option Angle
  | .pauli .z | .cz | .mcz => some (.ofEighths 4)
  | .s => some (.ofEighths 2)
  | .sDagger => some (.ofEighths 6)
  | .t => some (.ofEighths 1)
  | .tDagger => some (.ofEighths 7)
  | .rotation .z a => some a
  | _ => none

/-- The operation changes phases only. -/
def isDiagonal (op : Operation) : Bool := op.diagonalPhase?.isSome || op == .identity

/-- The inverse operation; a measurement has none. -/
def adjoint? : Operation → Option Operation
  | .s => some .sDagger
  | .sDagger => some .s
  | .t => some .tDagger
  | .tDagger => some .t
  | .rotation axis a => some (.rotation axis (-a))
  | .measure => none
  | op => some op

/-- Equality of values, with angles compared as numbers. -/
def same : Operation → Operation → Bool
  | .rotation axis a, .rotation axis' b => axis == axis' && a.same b
  | op, op' => op == op'

/-- The two operations undo each other; rotations about one axis do so when
their angles nearly cancel. -/
def isAdjointOf : Operation → Operation → Bool
  | .rotation axis a, .rotation axis' b =>
    axis == axis' && Angle.closeTo Angle.defaultTolerance (a + b) 0
  | op, op' => op.adjoint?.any (·.same op')

/-- The name, with the angle of a rotation in parentheses. -/
def text (op : Operation) : String :=
  match op.angle? with
  | some a => s!"{op.name}({a.text})"
  | none => op.name

end Operation

end CircuitSynthesis
