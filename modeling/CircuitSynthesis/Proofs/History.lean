import CircuitSynthesis.History
import CircuitSynthesis.Proofs.Circuit.Integrity
import CircuitSynthesis.Proofs.Edit

/-!
# Integrity over whole histories

Every request keeps a circuit sound, whether it is granted or not
(`Request.sound_perform`). For the engines this does not depend on what they
compute: an edit only ever appends gates that the circuit admits and installs
permutations of its wires. Hence every reachable circuit is intact, and the
integrity check says so.
-/

namespace CircuitSynthesis

open Circuit (Sound)

/-! ## The engines -/

/-- What appending an admitted gate and permuting the wires keep. -/
structure Edit.Stable (Inv : Circuit → Prop) : Prop where
  place : ∀ c g, Inv c → c.Admits g → Inv (c.place g)
  rewired : ∀ c map, Inv c → IsRangePermutation c.wireCount map → Inv { c with rewiring := map }

section Engines

variable {Inv : Circuit → Prop}

theorem Cascade.keeps_onCircuit {α : Type} {edit : Edit α} (h : Keeps Inv edit) :
    Keeps (fun w => Inv w.circuit) (Workspace.onCircuit edit) := by
  intro w hw
  have hafter := h w.circuit hw
  unfold stateAfter Workspace.onCircuit
  unfold stateAfter at hafter
  cases hrun : edit w.circuit with
  | ok a c =>
    rw [hrun] at hafter
    exact hafter
  | error e c =>
    rw [hrun] at hafter
    exact hafter

theorem Cascade.keeps (h : Edit.Stable Inv) (p : Placement) (width : Nat) (direction : Direction) :
    Keeps (fun w => Inv w.circuit) (Cascade.edit p width direction) := by
  refine .get_bind fun w hw => .lift_bind fun _ => ?_
  refine .bind (.set hw) fun _ => .bind ?_ fun _ => .pure _
  exact keeps_onCircuit (Edit.keeps_emitAll h.place _)

theorem Cnot.keeps (h : Edit.Stable Inv) (p : Placement) (m : BinaryMatrix) (o : CnotOptions) :
    Keeps Inv (Cnot.edit p m o) := by
  refine .get_bind fun _ _ => .lift_bind fun _ => .lift_bind fun r => ?_
  refine .bind (Edit.keeps_emitAll h.place _) fun _ => .bind ?_ fun _ => .pure _
  exact Edit.keeps_rewire? h.rewired _

theorem ParityNetwork.keeps (h : Edit.Stable Inv) (p : Placement) (terms : PhasePolynomial)
    (o : ParityOptions) : Keeps Inv (ParityNetwork.edit p terms o) := by
  refine .lift_bind fun _ => .get_bind fun _ _ => .lift_bind fun _ => .lift_bind fun _ => ?_
  refine .lift_bind fun _ => .lift_bind fun _ => .bind (Edit.keeps_emitAll h.place _) fun _ => ?_
  refine .lift_bind fun _ => .lift_bind fun _ => .lift_bind fun residual => ?_
  split
  · exact .pure _
  · refine .get_bind fun _ _ => .bind (Cnot.keeps h _ _ _) fun _ => ?_
    exact .get_bind fun _ _ => .pure _

theorem Staircase.keeps (h : Edit.Stable Inv) (p : Placement) (terms : PhasePolynomial)
    (order : WalkOrder) : Keeps Inv (Staircase.edit p terms order) := by
  refine .lift_bind fun _ => .get_bind fun _ _ => .lift_bind fun _ => .lift_bind fun _ => ?_
  split
  · exact .pure _
  · exact .bind (Edit.keeps_emitAll h.place _) fun _ => .pure _

end Engines

theorem Circuit.stable_sound : Edit.Stable Sound :=
  ⟨fun _ _ hc hg => hc.place hg, fun _ _ hc hmap => hc.rewired hmap⟩

/-! ## One request -/

namespace Request

variable {c : Circuit}

/-- A request keeps a circuit sound. -/
theorem sound_perform (hc : c.Sound) (request : Request) : (request.perform c).Sound := by
  cases request with
  | addWire kind => exact hc.addWire kind none
  | addNamedWire kind label =>
    exact (Circuit.guarded_addNamedWire c kind label).of_stateAfter hc
      fun _ => hc.addWire kind (some label)
  | addGate operation controls targets =>
    exact (Circuit.guarded_addGate c operation controls targets).of_stateAfter hc hc.place
  | append gate => exact (Circuit.guarded_append c gate).of_stateAfter hc hc.place
  | setMarked id value => exact hc.retagged (Circuit.retagged_setMarked c id value)
  | setVisited id value => exact hc.retagged (Circuit.retagged_setVisited c id value)
  | clearVisited => exact hc.retagged (Circuit.retagged_clearVisited c)
  | rewire map => exact (Circuit.guarded_rewire c map).of_stateAfter hc hc.rewired
  | compact => exact hc.compact
  | cascade p f direction =>
    exact Cascade.keeps Circuit.stable_sound p f.width direction ⟨c, f.table⟩ hc
  | cnot p m o => exact Cnot.keeps Circuit.stable_sound p m o c hc
  | parityNetwork p terms o => exact ParityNetwork.keeps Circuit.stable_sound p terms o c hc
  | staircase p terms order => exact Staircase.keeps Circuit.stable_sound p terms order c hc

end Request

/-! ## Whole histories -/

namespace Circuit

theorem Sound.foldl_perform {c : Circuit} (hc : c.Sound) (requests : List Request) :
    (requests.foldl Request.perform c).Sound := by
  induction requests generalizing c with
  | nil => exact hc
  | cons request requests ih => exact ih (Request.sound_perform hc request)

theorem Reachable.sound {c : Circuit} (h : c.Reachable) : c.Sound := by
  obtain ⟨requests, rfl⟩ := h
  exact sound_empty.foldl_perform requests

/-- Whatever was asked of a circuit, granted or refused, its structure is
intact and the integrity check accepts it. -/
theorem integrity_ofHistory (requests : List Request) :
    (ofHistory requests).integrity = .ok () ∧ (ofHistory requests).Intact := by
  have hsound : (ofHistory requests).Sound := Reachable.sound ⟨requests, rfl⟩
  exact ⟨hsound.integrity_eq_ok, hsound.intact⟩

end Circuit

end CircuitSynthesis
