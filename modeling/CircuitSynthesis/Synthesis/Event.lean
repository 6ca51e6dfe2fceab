import CircuitSynthesis.Synthesis.Options

/-!
# Events of a synthesis run

What an engine reports on its way, as data. Decisions are reported at debug
level; the number of appended gates comes last, at info level.
-/

namespace CircuitSynthesis

/-- A synthesis engine, as its final event names it. -/
inductive Engine where
  | cascade
  | cnot
  | parity
  | staircase (order : WalkOrder)
  deriving DecidableEq, Repr

/-- Something an engine reports. -/
inductive Event where
  /-- A row of the table is fixed by gates on the input side. -/
  | fixedFromInput (row source : Nat)
  /-- The content of another row is moved into place first. -/
  | movedRow (row source cost : Nat)
  /-- The table became the identity after this many gates on each side. -/
  | reduced (inputSide outputSide : Nat)
  | rowsReordered (order : List Nat)
  | partitionChosen (size cnots : Nat)
  | parityNetworkPlanned (cnots : Nat)
  | residualMap (residual : BinaryMatrix)
  | finished (engine : Engine) (gates : Nat)
  deriving DecidableEq, Repr

/-- How important an event is. -/
inductive Event.Level where
  | debug
  | info
  deriving DecidableEq, Repr

/-- The value of a named detail of an event. -/
inductive Event.Detail where
  | number (value : Nat)
  | text (value : String)
  deriving DecidableEq, Repr

def WalkOrder.name : WalkOrder → String
  | .binary => "Binary"
  | .gray => "Gray"

def Engine.name : Engine → String
  | .cascade => "Transformation-based"
  | .cnot => "CNOT-Patel"
  | .parity => "Gray"
  | .staircase _ => "Staircase"

namespace Event

def level : Event → Level
  | .finished _ _ => .info
  | _ => .debug

def message : Event → String
  | .fixedFromInput _ _ => "fixing row from the input side"
  | .movedRow _ _ _ => "moving row before fixing it"
  | .reduced _ _ => "permutation reduced to identity"
  | .rowsReordered _ => "rows reordered by pivot"
  | .partitionChosen _ _ => "best partition size"
  | .parityNetworkPlanned _ => "parity network planned"
  | .residualMap _ => "synthesizing residual linear map"
  | .finished engine gates => s!"{engine.name} synthesis emitted {gates} gates"

/-- The details of an event by name. -/
def details : Event → List (String × Detail)
  | .fixedFromInput row source => [("x", .number row), ("from", .number source)]
  | .movedRow row source cost =>
    [("x", .number row), ("from", .number source), ("cost", .number cost)]
  | .reduced inputSide outputSide =>
    [("input_side", .number inputSide), ("output_side", .number outputSide)]
  | .rowsReordered order => [("order", .text (bracketed order))]
  | .partitionChosen size cnots => [("partition_size", .number size), ("cnots", .number cnots)]
  | .parityNetworkPlanned cnots => [("cnots", .number cnots)]
  | .residualMap residual => [("residual", .text residual.text)]
  | .finished (.staircase order) _ => [("strategy", .text order.name)]
  | .finished _ _ => []

end Event

end CircuitSynthesis
