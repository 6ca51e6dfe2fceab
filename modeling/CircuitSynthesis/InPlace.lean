/-!
# Changing a state in place

A run in `EStateM` gives back a state in either case, also where it fails. What
a failure leaves behind is decided by the run and not by its type: a write that
was made before the failure is kept.
-/

namespace CircuitSynthesis

variable {ε σ α : Type}

/-- The state a run ends in, whether it fails or not. -/
def stateAfter (run : EStateM ε σ α) (s : σ) : σ :=
  match run s with
  | .ok _ s => s
  | .error _ s => s

/-- A question that is settled without touching the state. -/
instance exceptLift : MonadLift (Except ε) (EStateM ε σ) where
  monadLift r s :=
    match r with
    | .ok a => .ok a s
    | .error e => .error e s

end CircuitSynthesis
