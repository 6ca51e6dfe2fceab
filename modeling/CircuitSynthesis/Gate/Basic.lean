import CircuitSynthesis.Circuit.Error
import CircuitSynthesis.Gate.Operation

/-!
# Gates

A gate is an operation with its operands: controls, then targets. A gate is
valid when the operand counts fit the operation, every operand has the kind
its place asks for, and no wire is used twice, whatever its polarity.
-/

namespace CircuitSynthesis

/-- An operation on given wires. -/
structure Gate where
  operation : Operation
  controls : List Wire
  targets : List Wire
  deriving DecidableEq

namespace Gate

/-- Flip `target` if `control` is active. -/
def cx (control target : Wire) : Gate := ⟨.cx, [control], [target]⟩

/-- Flip all targets if all controls are active. -/
def mcx (controls targets : List Wire) : Gate := ⟨.mcx, controls, targets⟩

/-- Turn the phase of the states in which `target` is one. -/
def rotationZ (angle : Angle) (target : Wire) : Gate := ⟨.rotation .z angle, [], [target]⟩

def name (g : Gate) : String := g.operation.name

/-- All operands, controls first. -/
def operands (g : Gate) : List Wire := g.controls ++ g.targets

/-- The gate acts on the wire, in any polarity. -/
def touches (g : Gate) (w : Wire) : Bool := g.operands.any (·.sameWire w)

/-- The first operand of the wrong kind or used before, scanning from
position `position` on with the wires seen so far. -/
def operandFault (g : Gate) (position : Nat) (seen : List Wire) : List Wire → Option CircuitError
  | [] => none
  | w :: rest =>
    if w.kind ≠ g.operation.operandKind position then some (.wireKind w g.name)
    else if seen.any (·.sameWire w) then some (.duplicateWire w (some g.name))
    else g.operandFault (position + 1) (w :: seen) rest

/-- The first reason why the gate is not valid. -/
def fault? (g : Gate) : Option CircuitError :=
  if g.operation.accepts g.controls.length g.targets.length then
    g.operandFault 0 [] g.operands
  else
    some (.arity g.name g.controls.length g.targets.length)

/-- Accept a valid gate. -/
def validate (g : Gate) : Except CircuitError Unit :=
  match g.fault? with
  | none => .ok ()
  | some e => .error e

/-- A gate from its parts, if they make a valid one. -/
def make (operation : Operation) (controls targets : List Wire) : Except CircuitError Gate := do
  let g : Gate := ⟨operation, controls, targets⟩
  g.validate
  return g

/-- The gate that undoes this one. -/
def adjoint? (g : Gate) : Option Gate :=
  g.operation.adjoint?.map ({ g with operation := · })

/-- Equally many operands, and each of the first is among the second with
the same polarity. -/
def sameOperands (v w : List Wire) : Bool :=
  v.length == w.length && v.all (w.contains ·)

/-- The two gates undo each other on the same operands. -/
def isAdjointOf (g h : Gate) : Bool :=
  g.operation.isAdjointOf h.operation && sameOperands g.controls h.controls &&
    sameOperands g.targets h.targets

/-- The lists name the same wires in the same order. -/
def sameWires : List Wire → List Wire → Bool
  | [], [] => true
  | v :: vs, w :: ws => v.sameWire w && sameWires vs ws
  | _, _ => false

/-- Equality of values: polarities do not count and angles compare as numbers. -/
def same (g h : Gate) : Bool :=
  g.operation.same h.operation && sameWires g.controls h.controls && sameWires g.targets h.targets

/-- The operation and its operands. -/
def text (g : Gate) : String :=
  match g.operands with
  | [] => g.operation.text
  | ws => g.operation.text ++ " " ++ ", ".intercalate (ws.map (·.text))

end Gate

end CircuitSynthesis
