import CircuitSynthesis.Proofs.Circuit.Append
import CircuitSynthesis.Synthesis.Edit

/-!
# Reasoning about edits

A change of a circuit is a step of an edit that succeeds under the same
condition (`Edit.guarded_ofChange`). Gates that the circuit admits are all
appended (`Edit.emitAll_of_admits`), and what appending an admitted gate keeps
is kept by whatever an engine emits (`Edit.keeps_emitAll`).
-/

namespace CircuitSynthesis

namespace Edit

variable {c : Circuit}

/-! ## Changes as steps -/

theorem ofChange_of_error {α : Type} {change : Circuit.Change α} {e : CircuitError} {d : Circuit}
    (h : change c = .error e d) : ofChange change c = .error (.circuit e) d := by
  show EStateM.adaptExcept _ change c = _
  rw [EStateM.adaptExcept, h]

theorem guarded_ofChange {α : Type} {change : Circuit.Change α} {accepts : Prop} {a : α}
    {d : Circuit} (h : Guarded change c accepts a d) :
    Guarded (ofChange change) c accepts a d := by
  rcases h with ⟨haccepts, hrun⟩ | ⟨hnot, e, hrun⟩
  · refine .inl ⟨haccepts, ?_⟩
    show EStateM.adaptExcept _ change c = _
    rw [EStateM.adaptExcept, hrun]
  · exact .inr ⟨hnot, .circuit e, ofChange_of_error hrun⟩

theorem guarded_emit (c : Circuit) (g : Gate) :
    Guarded (emit g) c (c.Admits g) () (c.place g) :=
  (guarded_ofChange (Circuit.guarded_append c g)).bind_pure fun _ => ()

theorem guarded_rewire (c : Circuit) (map : List Nat) :
    Guarded (rewire map) c (IsRangePermutation c.wireCount map) () { c with rewiring := map } :=
  guarded_ofChange (Circuit.guarded_rewire c map)

/-! ## Appending gates and replacing the wire permutation -/

/-- Gates that a circuit admits are all appended. -/
theorem emitAll_of_admits {gates : List Gate} (h : ∀ g ∈ gates, c.Admits g) :
    emitAll gates c = .ok () (gates.foldl Circuit.place c) := by
  induction gates generalizing c with
  | nil => rfl
  | cons g gates ih =>
    have hfirst := (guarded_emit c g).eq_ok (h g List.mem_cons_self)
    have hrest : ∀ g' ∈ gates, (c.place g).Admits g' := fun g' hg' =>
      (h g' (List.mem_cons_of_mem _ hg')).congr (Circuit.place_declarations c g).symm
    exact (bind_ok hfirst).trans (ih hrest)

/-- Gates that are all appended are placed one after another. -/
theorem eq_foldl_place_of_emitAll {gates : List Gate} {u : Unit} {d : Circuit}
    (h : emitAll gates c = .ok u d) : d = gates.foldl Circuit.place c := by
  induction gates generalizing c with
  | nil =>
    cases h
    rfl
  | cons g gates ih =>
    obtain ⟨_, e, hemit, hrest⟩ := bind_eq_ok_iff.mp h
    obtain ⟨-, -, rfl⟩ := (guarded_emit c g).eq_ok_iff.mp hemit
    exact ih hrest

/-- Only the wire permutation is replaced. -/
theorem exists_rewiring_of_rewire? {map : Option (List Nat)} {u : Unit} {d : Circuit}
    (h : rewire? map c = .ok u d) : ∃ rewiring, d = { c with rewiring := rewiring } := by
  cases map with
  | none =>
    cases h
    exact ⟨c.rewiring, rfl⟩
  | some map =>
    obtain ⟨-, -, rfl⟩ := (guarded_rewire c map).eq_ok_iff.mp h
    exact ⟨map, rfl⟩

/-- The view of a caller who asks for the result. -/
theorem apply_eq_ok_iff {edit : Edit (List Event)} {r : Synthesized} :
    edit.apply c = .ok r ↔ edit c = .ok r.events r.circuit := by
  obtain ⟨d, events⟩ := r
  unfold apply
  cases edit c with
  | ok events' d' => simp [and_comm]
  | error e d' => simp

theorem apply_of_eq_ok {edit : Edit (List Event)} {events : List Event} {d : Circuit}
    (h : edit c = .ok events d) : edit.apply c = .ok ⟨d, events⟩ := apply_eq_ok_iff.mpr h

variable {Inv : Circuit → Prop}

/-- What appending an accepted gate keeps, appending any gates keeps. -/
theorem keeps_emitAll (h : ∀ c g, Inv c → c.Admits g → Inv (c.place g)) (gates : List Gate) :
    Keeps Inv (emitAll gates) := by
  induction gates with
  | nil => exact .pure ()
  | cons g gates ih =>
    exact Keeps.bind (fun c hc => (guarded_emit c g).of_stateAfter hc (h c g hc)) fun _ => ih

theorem keeps_rewire? (h : ∀ c map, Inv c → IsRangePermutation c.wireCount map →
    Inv { c with rewiring := map }) (map : Option (List Nat)) : Keeps Inv (rewire? map) := by
  cases map with
  | none => exact .pure ()
  | some map => exact fun c hc => (guarded_rewire c map).of_stateAfter hc (h c map hc)

end Edit

end CircuitSynthesis
