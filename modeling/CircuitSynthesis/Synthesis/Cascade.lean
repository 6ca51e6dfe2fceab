import CircuitSynthesis.ReversibleFunction
import CircuitSynthesis.Synthesis.Placement

/-!
# Toffoli cascades for reversible functions

The truth table is turned into the identity row by row. A gate on the output
side acts on every entry of the table, a gate on the input side exchanges
rows; either way the gates leave the rows below the current one alone,
because their controls contain a pattern that is at least the current row.
The circuit is the input-side gates in the order found, followed by the
output-side gates in reverse.
-/

namespace CircuitSynthesis

/-- Flip one bit of the patterns that contain all controls. -/
structure Toffoli where
  /-- The set of control positions. -/
  controls : Nat
  /-- The position that is flipped. -/
  target : Nat
  deriving DecidableEq, Repr

namespace Toffoli

/-- The action on a pattern. -/
def act (g : Toffoli) (x : Nat) : Nat := if Bits.covers x g.controls then x ^^^ 2 ^ g.target else x

/-- Gates that carry the pattern `source` to `goal`: first the bits to be set,
under the control of `source`, then the bits to be cleared, under the control
of `goal`. -/
def route (source goal : Nat) : List Toffoli :=
  (Bits.missing goal source).map (⟨source, ·⟩) ++ (Bits.missing source goal).map (⟨goal, ·⟩)

/-- The gate on the wires of a placement. -/
def toGate (p : Placement) (g : Toffoli) : Gate :=
  .mcx (p.select g.controls) (p.select (2 ^ g.target))

/-- Apply a gate after the function of a table. -/
def onOutput (table : Array Nat) (g : Toffoli) : Array Nat := table.map g.act

/-- Apply a gate before the function of a table. -/
def onInput (table : Array Nat) (g : Toffoli) : Array Nat :=
  Array.ofFn fun i : Fin table.size => table.getD (g.act i) 0

end Toffoli

namespace Cascade

/-- A table on its way to the identity, with the gates and events so far. -/
structure State where
  table : Array Nat
  inputSide : List Toffoli
  outputSide : List Toffoli
  events : List Event

namespace State

/-- The image of a row. -/
def image (s : State) (x : Nat) : Nat := s.table.getD x 0

/-- Carry the image of row `x` to `x`. -/
def carryImage (s : State) (x : Nat) : State :=
  let gates := Toffoli.route (s.image x) x
  { s with
    table := gates.foldl Toffoli.onOutput s.table
    outputSide := s.outputSide ++ gates }

/-- Bring the content of row `z` to row `x`. -/
def bringRow (s : State) (x z : Nat) : State :=
  let gates := Toffoli.route z x
  { s with
    table := gates.foldl Toffoli.onInput s.table
    inputSide := s.inputSide ++ gates }

def report (s : State) (e : Event) : State := { s with events := s.events ++ [e] }

/-- The row from `x` on that holds `x`. -/
def rowOf (s : State) (x : Nat) : Nat :=
  ((List.range' x (s.table.size - x)).find? (s.image · == x)).getD x

/-- Gates needed to bring the content of row `z` to row `x` and fix it. -/
def cost (s : State) (x z : Nat) : Nat := Bits.weight (z ^^^ x) + Bits.weight (x ^^^ s.image z)

/-- The first row from `x` on with the least cost, and that cost. -/
def cheapestRow (s : State) (x : Nat) : Nat × Nat :=
  (List.range' (x + 1) (s.table.size - (x + 1))).foldl
    (fun best z => if s.cost x z < best.2 then (z, s.cost x z) else best) (x, s.cost x x)

/-- Fix row `x`, once all rows before it are fixed. -/
def step (direction : Direction) (s : State) (x : Nat) : State :=
  match direction with
  | .unidirectional => if s.image x = x then s else s.carryImage x
  | .bidirectional =>
    if s.image x = x then s
    else
      let source := s.rowOf x
      if Bits.weight (x ^^^ s.image x) ≤ Bits.weight (x ^^^ source) then s.carryImage x
      else (s.report (.fixedFromInput x source)).bringRow x source
  | .multidirectional =>
    let (source, cost) := s.cheapestRow x
    let s := if source = x then s else s.report (.movedRow x source cost)
    (s.bringRow x source).carryImage x

end State

/-- Turn a table into the identity. -/
def reduce (direction : Direction) (table : Array Nat) : State :=
  (List.range table.size).foldl (State.step direction) ⟨table, [], [], []⟩

/-- The gates in circuit order. -/
def State.gates (s : State) : List Toffoli := s.inputSide ++ s.outputSide.reverse

/-- A circuit and a table that is reduced while gates are appended. -/
structure Workspace where
  circuit : Circuit
  table : Array Nat

/-- Edit the circuit of a workspace. -/
def Workspace.onCircuit {α : Type} (edit : Edit α) : EStateM SynthesisError Workspace α := fun w =>
  match edit w.circuit with
  | .ok a c => .ok a { w with circuit := c }
  | .error e c => .error e { w with circuit := c }

/-- Reduce the table of a workspace, a function on `width` bits, and append
the cascade to its circuit. -/
def edit (p : Placement) (width : Nat) (direction : Direction) :
    EStateM SynthesisError Workspace (List Event) := do
  let w ← get
  p.check w.circuit width
  let s := reduce direction w.table
  set { w with table := s.table }
  Workspace.onCircuit (Edit.emitAll (s.gates.map (·.toGate p)))
  return s.events ++
    [.reduced s.inputSide.length s.outputSide.length, .finished .cascade s.gates.length]

/-- A circuit with a cascade appended, and what is left of the table. -/
structure Result extends Synthesized where
  table : Array Nat

/-- Append a cascade for `f` to a circuit. -/
def appendTo (c : Circuit) (p : Placement) (f : ReversibleFunction) (direction : Direction) :
    Except SynthesisError Result :=
  match edit p f.width direction ⟨c, f.table⟩ with
  | .ok events w => .ok { circuit := w.circuit, events, table := w.table }
  | .error e _ => .error e

/-- A circuit for `f` on qubits of its own. -/
def synthesize (f : ReversibleFunction) (direction : Direction) :
    Except SynthesisError Synthesized := do
  let c := Circuit.ofQubits f.width
  return (← appendTo c c.qubits f direction).toSynthesized

end Cascade

end CircuitSynthesis
