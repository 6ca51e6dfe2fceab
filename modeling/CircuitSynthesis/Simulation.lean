import CircuitSynthesis.BinaryMatrix.Basic
import CircuitSynthesis.Circuit.Basic

/-!
# Simulation

What a circuit does to a bit pattern, to the parities on its wires, and to
the phase of a basis state. Bit `i` of a pattern is the value of wire `i`, so
at most a machine word of wires can be simulated. Marked gates do not act.
-/

namespace CircuitSynthesis

namespace Gate

/-- The value of a wire in a pattern. -/
def valueOf (x : Nat) (w : Wire) : Bool := x.testBit w.index

/-- Every control has the value it is active on. -/
def isActive (g : Gate) (x : Nat) : Bool :=
  g.controls.all fun w => valueOf x w != w.isComplemented

/-- The pattern with every target flipped. -/
def flipAll (g : Gate) (x : Nat) : Nat := g.targets.foldl (fun x w => x ^^^ 2 ^ w.index) x

/-- The pattern with two wires exchanged. -/
def exchange (x : Nat) (v w : Wire) : Nat :=
  if valueOf x v == valueOf x w then x else x ^^^ 2 ^ v.index ^^^ 2 ^ w.index

/-- The pattern with the two targets exchanged. -/
def exchangeTargets (g : Gate) (x : Nat) : Nat :=
  match g.targets with
  | v :: w :: _ => exchange x v w
  | _ => x

/-- The action on a bit pattern, for gates that map patterns to patterns. -/
def onPattern (x : Nat) (g : Gate) : Except SynthesisError Nat :=
  match g.operation with
  | .pauli .x | .pauli .y | .cx | .mcx => .ok (if g.isActive x then g.flipAll x else x)
  | .swap => .ok (g.exchangeTargets x)
  | op => if op.isDiagonal then .ok x else .error (.notClassical g)

/-- Add the parity on the control to every target. -/
def addControl (control : Wire) (targets : List Wire) (rows : List Nat) : List Nat :=
  let parity := rows.getD control.index 0
  targets.foldl (fun rows w => rows.set w.index (rows.getD w.index 0 ^^^ parity)) rows

/-- The action on the parities carried by the wires, for gates that are
linear up to phases. -/
def onParities (rows : List Nat) (g : Gate) : Except SynthesisError (List Nat) :=
  match g.operation, g.controls, g.targets with
  | .cx, [control], targets | .mcx, [control], targets =>
    if control.isComplemented then .error (.notLinear g)
    else .ok (addControl control targets rows)
  | .swap, _, v :: w :: _ => .ok (swapEntries rows v.index w.index)
  | op, _, _ => if op.isDiagonal then .ok rows else .error (.notLinear g)

/-- The phase of a diagonal gate, once for each target that is one. -/
def diagonalTurn (g : Gate) (angle : Angle) (x : Nat) (phase : Angle) : Angle :=
  if g.isActive x then
    g.targets.foldl (fun phase w => if valueOf x w then phase + angle else phase) phase
  else phase

/-- The action on a basis state and its phase. A `y` gate takes zero to one
with a quarter turn and one to zero with three quarters. -/
def onState : Nat × Angle → Gate → Except SynthesisError (Nat × Angle)
  | (x, phase), g =>
    match g.operation with
    | .pauli .y =>
      let isOne := g.targets.head?.any (valueOf x)
      .ok (g.flipAll x, phase + .ofEighths (if isOne then 6 else 2))
    | .pauli .x | .cx | .mcx => .ok (if g.isActive x then g.flipAll x else x, phase)
    | .swap => .ok (g.exchangeTargets x, phase)
    | op =>
      match op.diagonalPhase? with
      | some angle => .ok (x, g.diagonalTurn angle x phase)
      | none => if op.isDiagonal then .ok (x, phase) else .error (.notClassical g)

end Gate

namespace Circuit

/-- The output pattern for an input pattern. -/
def simulate (c : Circuit) (x : Nat) : Except SynthesisError Nat := do
  admitQubits Bits.wordSize c.wireCount
  c.liveGates.foldlM Gate.onPattern x

/-- The linear map over GF(2) computed by the circuit: row `i` is the parity
of the inputs that wire `i` carries at the end. -/
def linearPart (c : Circuit) : Except SynthesisError BinaryMatrix := do
  admitQubits Bits.wordSize c.wireCount
  let rows ← c.liveGates.foldlM Gate.onParities (Bits.units c.wireCount)
  BinaryMatrix.ofRows rows

/-- The phase a basis state picks up on its way. -/
def phaseOf (c : Circuit) (x : Nat) : Except SynthesisError Angle := do
  admitQubits Bits.wordSize c.wireCount
  let (_, phase) ← c.liveGates.foldlM Gate.onState (x, 0)
  return phase

/-- The linear part with its rows put back in the order that the wire
permutation names. -/
def realizedMap (c : Circuit) : Except SynthesisError BinaryMatrix := do
  (← c.linearPart).scatterRows c.rewiring

end Circuit

end CircuitSynthesis
