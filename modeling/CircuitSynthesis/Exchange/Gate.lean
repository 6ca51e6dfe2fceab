import CircuitSynthesis.Gate.Basic
import CircuitSynthesis.Json.Record

/-!
# JSON form of wires, angles and gates

What is read is not validated: a gate with operands that do not fit its
operation can be exchanged like any other.
-/

namespace CircuitSynthesis

/-! ## Wires -/

def Wire.Kind.exchangeName : Wire.Kind → String
  | .qubit => "Qubit"
  | .cbit => "Cbit"

def Wire.Kind.names : List (String × Wire.Kind) := [.qubit, .cbit].map fun k => (k.exchangeName, k)

def Polarity.exchangeName : Polarity → String
  | .positive => "Positive"
  | .negative => "Negative"

def Polarity.names : List (String × Polarity) := [.positive, .negative].map fun p => (p.exchangeName, p)

namespace Wire

def toJson (w : Wire) : Json :=
  .ofFields [("index", .ofNat w.index), ("kind", .ofString w.kind.exchangeName),
    ("polarity", .ofString w.polarity.exchangeName)]

def ofJson? (j : Json) : Option Wire := do
  match ← j.slots false ["index", "kind", "polarity"] with
  | [index, kind, polarity] =>
    return ⟨← index.required (Json.natUpTo? Json.maxNat32),
      ← kind.required (Json.plainChoice? Kind.names),
      ← polarity.required (Json.plainChoice? Polarity.names)⟩
  | _ => none

end Wire

namespace DeclaredWire

def toJson (d : DeclaredWire) : Json :=
  .ofFields [("wire", d.wire.toJson), ("label", (d.label.map Json.ofString).getD .null)]

def ofJson? (j : Json) : Option DeclaredWire := do
  match ← j.slots false ["wire", "label"] with
  | [wire, label] => return ⟨← wire.required Wire.ofJson?, ← label.nullable Json.string?⟩
  | _ => none

end DeclaredWire

/-! ## Angles -/

namespace Angle

/-- The name of an exact angle as a fraction of a full turn. -/
def fractionName : Fin 8 → String
  | 0 => "zero"
  | 1 => "one_eighth"
  | 2 => "one_quarter"
  | 3 => "three_eighth"
  | 4 => "one_half"
  | 5 => "five_eighth"
  | 6 => "three_quarter"
  | 7 => "seven_eighth"

def fractionNames : List (String × Fin 8) := (List.finRange 8).map fun k => (fractionName k, k)

/-- Radians that are not finite have no number and become null. -/
def toJson : Angle → Json
  | .turn k => .ofChoice "symbolic" (.ofString (fractionName k))
  | .radians x =>
    .ofChoice "numeric" (if x.isFinite then .number (Json.numberLayout.text x).toList else .null)

def ofJson? (j : Json) : Option Angle := do
  match ← j.choice? with
  | ("symbolic", some v) => return .turn (← Json.plainChoice? fractionNames v)
  | ("numeric", some (.number spelling)) => return .radians (← Json.float? spelling)
  | _ => none

end Angle

/-! ## Operations and gates -/

namespace Operation

/-- The name in exchange; rotations also carry their angle. -/
def exchangeName : Operation → String
  | .identity => "identity"
  | .hadamard => "hadamard"
  | .pauli axis => "pauli_" ++ axis.letter
  | .s => "phase"
  | .sDagger => "phase_dagger"
  | .t => "t"
  | .tDagger => "t_dagger"
  | .rotation axis _ => "rotation_" ++ axis.letter
  | .cx => "cx"
  | .cz => "cz"
  | .mcx => "mcx"
  | .mcz => "mcz"
  | .swap => "swap"
  | .measure => "measure"

/-- The operations without an angle, by name. -/
def plainNames : List (String × Operation) :=
  [.identity, .hadamard, .pauli .x, .pauli .y, .pauli .z, .s, .sDagger, .t, .tDagger, .cx, .cz,
    .mcx, .mcz, .swap, .measure].map fun op => (op.exchangeName, op)

/-- The axes of the rotations, by name. -/
def rotationNames : List (String × Axis) :=
  [.x, .y, .z].map fun axis => ("rotation_" ++ axis.letter, axis)

def toJson (op : Operation) : Json :=
  match op.angle? with
  | some angle => .ofChoice op.exchangeName angle.toJson
  | none => .ofString op.exchangeName

def ofJson? (j : Json) : Option Operation := do
  let (name, value) ← j.choice?
  match rotationNames.lookup name, value with
  | some axis, some v => return .rotation axis (← Angle.ofJson? v)
  | _, _ => Json.plainChoice? plainNames j

end Operation

namespace Gate

def toJson (g : Gate) : Json :=
  .ofFields [("kind", g.operation.toJson), ("controls", .ofList Wire.toJson g.controls),
    ("targets", .ofList Wire.toJson g.targets)]

def ofJson? (j : Json) : Option Gate := do
  match ← j.slots false ["kind", "controls", "targets"] with
  | [kind, controls, targets] =>
    return ⟨← kind.required Operation.ofJson?, ← controls.required (Json.list? Wire.ofJson?),
      ← targets.required (Json.list? Wire.ofJson?)⟩
  | _ => none

end Gate

end CircuitSynthesis
