/-!
# Wires

A wire is named by its index in a circuit and by what it carries. Used as a
gate operand it also has a polarity, which says on which value a control is
active. Two operands with different polarities still name the same wire.
-/

namespace CircuitSynthesis

/-- What a wire carries. -/
inductive Wire.Kind where
  /-- A quantum bit. -/
  | qubit
  /-- A classical bit. -/
  | cbit
  deriving DecidableEq, Repr

/-- The value on which a control is active. -/
inductive Polarity where
  /-- Active on one. -/
  | positive
  /-- Active on zero. -/
  | negative
  deriving DecidableEq, Repr

/-- The other polarity. -/
def Polarity.flip : Polarity → Polarity
  | .positive => .negative
  | .negative => .positive

/-- A wire of a circuit, as an operand. -/
structure Wire where
  index : Nat
  kind : Wire.Kind
  polarity : Polarity
  deriving DecidableEq, Repr

namespace Wire

/-- The wire with the given index and kind, as a positive operand. -/
def ofKind (kind : Kind) (index : Nat) : Wire := ⟨index, kind, .positive⟩

/-- The qubit with the given index. -/
def qubit (index : Nat) : Wire := ofKind .qubit index

/-- The classical bit with the given index. -/
def cbit (index : Nat) : Wire := ofKind .cbit index

def isQubit (w : Wire) : Bool := w.kind == .qubit

def isComplemented (w : Wire) : Bool := w.polarity == .negative

def withPolarity (w : Wire) (p : Polarity) : Wire := { w with polarity := p }

/-- The same wire as a positive operand. -/
def positive (w : Wire) : Wire := w.withPolarity .positive

/-- The same wire with the other polarity. -/
def complement (w : Wire) : Wire := w.withPolarity w.polarity.flip

/-- Both operands name one wire. -/
def sameWire (v w : Wire) : Bool := v.index == w.index && v.kind == w.kind

/-- The letter of the kind and the index, with `!` before a complemented wire. -/
def text (w : Wire) : String :=
  let letter := match w.kind with
    | .qubit => "q"
    | .cbit => "c"
  (if w.isComplemented then "!" else "") ++ letter ++ toString w.index

theorem sameWire_iff {v w : Wire} : v.sameWire w = true ↔ v.index = w.index ∧ v.kind = w.kind := by
  simp [sameWire]

theorem sameWire_iff_positive_eq {v w : Wire} : v.sameWire w = true ↔ v.positive = w.positive := by
  cases v
  cases w
  simp [sameWire, positive, withPolarity]

end Wire

/-- A wire with the label it was declared under, if any. -/
structure DeclaredWire where
  wire : Wire
  label : Option String
  deriving DecidableEq, Repr

/-- The label, or the name of the wire when it has none. -/
def DeclaredWire.text (d : DeclaredWire) : String := d.label.getD d.wire.positive.text

end CircuitSynthesis
