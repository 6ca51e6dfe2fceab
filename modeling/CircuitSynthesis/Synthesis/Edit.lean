import CircuitSynthesis.Circuit.Basic
import CircuitSynthesis.Synthesis.Event

/-!
# Editing a circuit in place

An engine appends its gates one by one and may fail on the way. An edit keeps
what was done before a failure, so that the circuit left behind is known in
every case. `Edit.apply` is the view of a caller who only asks for the result.
-/

namespace CircuitSynthesis

/-- A circuit after synthesis and what was reported on the way. -/
structure Synthesized where
  circuit : Circuit
  events : List Event

/-- Work on a circuit in place. A failure comes with the circuit as it is then. -/
abbrev Edit := EStateM SynthesisError Circuit

namespace Edit

/-- A change of the circuit as a step of an edit. -/
def ofChange {α : Type} (change : Circuit.Change α) : Edit α := change.adaptExcept .circuit

/-- Append a gate. -/
def emit (g : Gate) : Edit Unit := do
  let _id ← ofChange (Circuit.append g)
  return ()

/-- Append gates one after another. -/
def emitAll (gates : List Gate) : Edit Unit := gates.forM emit

/-- Replace the wire permutation. -/
def rewire (map : List Nat) : Edit Unit := ofChange (Circuit.rewire map)

/-- Replace the wire permutation, if there is a new one. -/
def rewire? : Option (List Nat) → Edit Unit
  | some map => rewire map
  | none => pure ()

/-- The edited circuit with the reported events, or why the edit failed. -/
def apply (edit : Edit (List Event)) (c : Circuit) : Except SynthesisError Synthesized :=
  match edit c with
  | .ok events c => .ok ⟨c, events⟩
  | .error e _ => .error e

end Edit

end CircuitSynthesis
