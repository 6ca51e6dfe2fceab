import CircuitSynthesis.Circuit.Basic
import CircuitSynthesis.Proofs.InPlace
import Mathlib.Data.List.Basic

/-!
# What appending a gate changes

A gate is accepted exactly when it is valid and all its operands are wires of
the circuit (`Circuit.guarded_append`). An accepted gate becomes the last node
and the last entry of the order of the gates, and neither the declared wires nor
the wire permutation change. Gates that are placed one after another therefore
stay admitted, and the unmarked gates grow by exactly that list
(`Circuit.foldl_place_liveGates`).
-/

namespace CircuitSynthesis

/-! ## Valid gates -/

namespace Gate

/-- The scan over the operands finds no fault exactly when every operand has
the kind of its place and no wire was met before. -/
theorem operandFault_eq_none_iff (g : Gate) (operands : List Wire) (position : Nat)
    (seen : List Wire) :
    g.operandFault position seen operands = none ↔
      (∀ i (h : i < operands.length),
        operands[i].kind = g.operation.operandKind (position + i)) ∧
      operands.Pairwise (fun v w => v.sameWire w = false) ∧
      ∀ w ∈ operands, ∀ v ∈ seen, v.sameWire w = false := by
  induction operands generalizing position seen with
  | nil => simp [operandFault]
  | cons w rest ih =>
    rw [operandFault]
    by_cases hkind : w.kind = g.operation.operandKind position
    · by_cases hseen : seen.any (·.sameWire w) = true
      · rw [if_neg (by simpa using hkind), if_pos hseen]
        obtain ⟨v, hv, hsame⟩ := List.any_eq_true.mp hseen
        refine ⟨by simp, fun h => ?_⟩
        rw [h.2.2 w List.mem_cons_self v hv] at hsame
        exact absurd hsame (by simp)
      · rw [if_neg (by simpa using hkind), if_neg hseen, ih]
        have hfresh : ∀ v ∈ seen, v.sameWire w = false := by simpa using hseen
        constructor
        · rintro ⟨hkinds, hrest, hnew⟩
          refine ⟨?_, List.pairwise_cons.mpr
            ⟨fun v hv => hnew v hv w List.mem_cons_self, hrest⟩, ?_⟩
          · intro i hi
            cases i with
            | zero => exact hkind
            | succ i =>
              have := hkinds i (by simpa using hi)
              rwa [show position + 1 + i = position + (i + 1) by omega] at this
          · intro u hu v hv
            rcases List.mem_cons.mp hu with rfl | hu
            · exact hfresh v hv
            · exact hnew u hu v (List.mem_cons_of_mem _ hv)
        · rintro ⟨hkinds, hpair, hnew⟩
          obtain ⟨hw, hrest⟩ := List.pairwise_cons.mp hpair
          refine ⟨?_, hrest, ?_⟩
          · intro i hi
            have := hkinds (i + 1) (by simpa using hi)
            rwa [show position + (i + 1) = position + 1 + i by omega] at this
          · intro u hu v hv
            rcases List.mem_cons.mp hv with rfl | hv
            · exact hw u hu
            · exact hnew u (List.mem_cons_of_mem _ hu) v hv
    · rw [if_pos hkind]
      refine ⟨by simp, fun h => absurd ?_ hkind⟩
      exact h.1 0 (by simp)

/-- A gate is valid exactly when its operand counts fit, its operands have the
kinds of their places, and no wire is used twice. -/
theorem validate_eq_ok_iff (g : Gate) :
    g.validate = .ok () ↔
      g.operation.accepts g.controls.length g.targets.length = true ∧
      (∀ i (h : i < g.operands.length), g.operands[i].kind = g.operation.operandKind i) ∧
      g.operands.Pairwise (fun v w => v.sameWire w = false) := by
  have hscan := operandFault_eq_none_iff g g.operands 0 []
  simp only [Nat.zero_add, List.not_mem_nil, false_implies, implies_true, and_true] at hscan
  unfold validate fault?
  by_cases haccepts : g.operation.accepts g.controls.length g.targets.length = true
  · rw [if_pos haccepts, ← hscan]
    cases g.operandFault 0 [] g.operands with
    | none => simp [haccepts]
    | some e => simp
  · rw [if_neg haccepts]
    simp [haccepts]

end Gate

namespace Circuit

/-! ## One gate -/

/-- The wires of a circuit with their labels, in order. -/
def declarations (c : Circuit) : List DeclaredWire := c.tracks.toList.map (·.declared)

theorem wires_eq_map_declarations (c : Circuit) : c.wires = c.declarations.map (·.wire) := by
  simp [wires, declarations]

theorem wireCount_eq_length_declarations (c : Circuit) :
    c.wireCount = c.declarations.length := by
  simp [wireCount, declarations]

/-- Whether a wire belongs to a circuit depends on the declarations only. -/
theorem map_declared_track? (c : Circuit) (w : Wire) :
    (c.track? w).map (·.declared) =
      c.declarations[w.index]?.filter (·.wire.kind == w.kind) := by
  unfold track? declarations
  rw [List.getElem?_map, Array.getElem?_toList]
  cases c.tracks[w.index]? with
  | none => rfl
  | some t =>
    simp only [Option.map_some, Option.filter_some]
    split <;> rfl

theorem isSome_track?_congr {c d : Circuit} (h : c.declarations = d.declarations) (w : Wire) :
    (c.track? w).isSome = (d.track? w).isSome := by
  have hc := map_declared_track? c w
  have hd := map_declared_track? d w
  rw [h, ← hd] at hc
  simpa using congrArg Option.isSome hc

/-- The second circuit differs from the first in edges and in the nodes on its
wires only. -/
structure Rethreaded (c d : Circuit) : Prop where
  nodes_eq : d.nodes = c.nodes
  declarations_eq : d.declarations = c.declarations
  gateOrder_eq : d.gateOrder = c.gateOrder
  labels_eq : d.labels = c.labels
  rewiring_eq : d.rewiring = c.rewiring
  qubitCount_eq : d.qubitCount = c.qubitCount

theorem Rethreaded.refl (c : Circuit) : Rethreaded c c := ⟨rfl, rfl, rfl, rfl, rfl, rfl⟩

theorem Rethreaded.trans {c d e : Circuit} (h : Rethreaded c d) (h' : Rethreaded d e) :
    Rethreaded c e where
  nodes_eq := h'.nodes_eq.trans h.nodes_eq
  declarations_eq := h'.declarations_eq.trans h.declarations_eq
  gateOrder_eq := h'.gateOrder_eq.trans h.gateOrder_eq
  labels_eq := h'.labels_eq.trans h.labels_eq
  rewiring_eq := h'.rewiring_eq.trans h.rewiring_eq
  qubitCount_eq := h'.qubitCount_eq.trans h.qubitCount_eq

theorem rethreaded_attach (id : Nat) (c : Circuit) (w : Wire) : Rethreaded c (attach id c w) := by
  unfold attach
  split
  · exact .refl c
  · refine ⟨rfl, ?_, rfl, rfl, rfl, rfl⟩
    apply List.ext_getElem?
    intro i
    simp only [declarations, List.getElem?_map, Array.getElem?_toList, Array.getElem?_modify]
    split
    · cases c.tracks[i]? <;> rfl
    · rfl

/-- Attaching a node to wires one after another changes tracks and edges only. -/
theorem rethreaded_foldl_attach (id : Nat) (ws : List Wire) (c : Circuit) :
    Rethreaded c (ws.foldl (attach id) c) := by
  induction ws generalizing c with
  | nil => exact .refl c
  | cons w ws ih => exact (rethreaded_attach id c w).trans (ih (attach id c w))

theorem rethreaded_place (c : Circuit) (g : Gate) : Rethreaded (c.pushGate g) (c.place g) :=
  rethreaded_foldl_attach _ _ _

@[simp] theorem place_nodes (c : Circuit) (g : Gate) :
    (c.place g).nodes = c.nodes.push (.ofContent (.gate g)) := (rethreaded_place c g).nodes_eq

@[simp] theorem place_declarations (c : Circuit) (g : Gate) :
    (c.place g).declarations = c.declarations := (rethreaded_place c g).declarations_eq

@[simp] theorem place_gateOrder (c : Circuit) (g : Gate) :
    (c.place g).gateOrder = c.gateOrder.push c.nodes.size := (rethreaded_place c g).gateOrder_eq

@[simp] theorem place_labels (c : Circuit) (g : Gate) : (c.place g).labels = c.labels :=
  (rethreaded_place c g).labels_eq

@[simp] theorem place_rewiring (c : Circuit) (g : Gate) : (c.place g).rewiring = c.rewiring :=
  (rethreaded_place c g).rewiring_eq

@[simp] theorem place_qubitCount (c : Circuit) (g : Gate) :
    (c.place g).qubitCount = c.qubitCount := (rethreaded_place c g).qubitCount_eq

/-- Nodes that are added behind all others change no entry of the order of the
gates. -/
theorem liveGateAt?_congr {c d : Circuit} (h : ∀ id < c.nodes.size, d.nodes[id]? = c.nodes[id]?)
    {id : Nat} (hid : id ∈ c.gateOrder.toList) : d.liveGateAt? id = c.liveGateAt? id := by
  rw [liveGateAt?, h id (c.gateOrder_lt id (Array.mem_toList_iff.mp hid)), liveGateAt?]

@[simp] theorem place_liveGates (c : Circuit) (g : Gate) :
    (c.place g).liveGates = c.liveGates ++ [g] := by
  have hold : ∀ id ∈ c.gateOrder.toList, (c.place g).liveGateAt? id = c.liveGateAt? id := by
    refine fun id hid => liveGateAt?_congr (fun id hid => ?_) hid
    rw [place_nodes, Array.getElem?_push, if_neg (Nat.ne_of_lt hid)]
  have hnew : (c.place g).liveGateAt? c.nodes.size = some g := by
    simp [liveGateAt?, Node.liveGate?, Node.ofContent, Node.gate?]
  rw [liveGates, place_gateOrder, Array.toList_push, List.filterMap_append,
    List.filterMap_congr hold]
  simp [hnew, liveGates]

/-- The gate is valid and acts on wires of the circuit. -/
structure Admits (c : Circuit) (g : Gate) : Prop where
  valid : g.validate = .ok ()
  onWires : ∀ w ∈ g.operands, (c.track? w).isSome = true

theorem Admits.congr {c d : Circuit} (h : c.declarations = d.declarations) {g : Gate}
    (hg : c.Admits g) : d.Admits g :=
  ⟨hg.valid, fun w hw => (isSome_track?_congr h w).symm.trans (hg.onWires w hw)⟩

/-- A gate is accepted exactly when the circuit admits it, and then it is
placed under the next free number. -/
theorem guarded_append (c : Circuit) (g : Gate) :
    Guarded (append g) c (c.Admits g) c.nodes.size (c.place g) := by
  unfold append
  cases hvalid : g.validate with
  | error e =>
    refine .inr ⟨fun hg => ?_, e, rfl⟩
    rw [hg.valid] at hvalid
    cases hvalid
  | ok _ =>
    cases hfind : g.operands.find? fun w => (c.track? w).isNone with
    | some w =>
      have hnone := List.find?_some hfind
      refine .inr ⟨fun hg => ?_, .wireNotFound w (some g.name), ?_⟩
      · have hsome := hg.onWires w (List.mem_of_find?_eq_some hfind)
        rw [Option.isSome_iff_ne_none] at hsome
        exact absurd (Option.isNone_iff_eq_none.mp hnone) hsome
      · rw [lift_bind_ok rfl, get_bind, hfind]
        rfl
    | none =>
      refine .inl ⟨⟨hvalid, fun w hw => ?_⟩, ?_⟩
      · have := List.find?_eq_none.mp hfind w hw
        simpa [Option.isSome_iff_ne_none] using this
      · rw [lift_bind_ok rfl, get_bind, hfind]
        rfl

theorem guarded_addGate (c : Circuit) (operation : Operation) (controls targets : List Wire) :
    let g : Gate := ⟨operation, controls, targets⟩
    Guarded (addGate operation controls targets) c (c.Admits g) c.nodes.size (c.place g) := by
  intro g
  have hmake : Gate.make operation controls targets = g.validate.map fun _ => g := by
    unfold Gate.make
    cases hvalid : g.validate <;> simp only [g] at hvalid <;> simp [hvalid] <;> rfl
  unfold addGate
  rw [hmake]
  cases hvalid : g.validate with
  | error e =>
    refine .inr ⟨fun hg => ?_, e, rfl⟩
    rw [hg.valid] at hvalid
    cases hvalid
  | ok _ => exact guarded_append c g

/-! ## A list of gates -/

/-- What placing a gate leaves alone, placing a list of gates does. -/
theorem foldl_place_eq {α : Type} {f : Circuit → α} (h : ∀ c g, f (c.place g) = f c)
    (gates : List Gate) (c : Circuit) : f (gates.foldl place c) = f c := by
  induction gates generalizing c with
  | nil => rfl
  | cons g gates ih => rw [List.foldl_cons, ih, h]

@[simp] theorem foldl_place_declarations (gates : List Gate) (c : Circuit) :
    (gates.foldl place c).declarations = c.declarations := foldl_place_eq place_declarations gates c

@[simp] theorem foldl_place_rewiring (gates : List Gate) (c : Circuit) :
    (gates.foldl place c).rewiring = c.rewiring := foldl_place_eq place_rewiring gates c

@[simp] theorem foldl_place_qubitCount (gates : List Gate) (c : Circuit) :
    (gates.foldl place c).qubitCount = c.qubitCount := foldl_place_eq place_qubitCount gates c

@[simp] theorem foldl_place_wireCount (gates : List Gate) (c : Circuit) :
    (gates.foldl place c).wireCount = c.wireCount := by
  rw [wireCount_eq_length_declarations, foldl_place_declarations,
    ← wireCount_eq_length_declarations]

/-- Placing gates one after another appends them to the unmarked gates. -/
@[simp] theorem foldl_place_liveGates (gates : List Gate) (c : Circuit) :
    (gates.foldl place c).liveGates = c.liveGates ++ gates := by
  induction gates generalizing c with
  | nil => simp
  | cons g gates ih => simp [ih]

theorem foldl_place_nodes (gates : List Gate) (c : Circuit) :
    (gates.foldl place c).nodes.toList =
      c.nodes.toList ++ gates.map fun g => .ofContent (.gate g) := by
  induction gates generalizing c with
  | nil => simp
  | cons g gates ih => simp [ih]

theorem foldl_place_gateCount (gates : List Gate) (c : Circuit) :
    (gates.foldl place c).gateCount = c.gateCount + gates.length := by
  induction gates generalizing c with
  | nil => rfl
  | cons g gates ih =>
    have hplace : (c.place g).gateCount = c.gateCount + 1 := by simp [gateCount]
    rw [List.foldl_cons, ih, hplace, List.length_cons]
    omega

/-! ## Wires -/

theorem guarded_addNamedWire (c : Circuit) (kind : Wire.Kind) (label : String) :
    Guarded (addNamedWire kind label) c (c.wireByLabel? label = none)
      (c.addWire kind (some label)).2 (c.addWire kind (some label)).1 := by
  unfold addNamedWire
  cases htaken : c.wireByLabel? label with
  | some w =>
    refine .inr ⟨by simp, .labelTaken label, ?_⟩
    rw [get_bind, htaken]
    rfl
  | none =>
    refine .inl ⟨rfl, ?_⟩
    rw [get_bind, htaken]
    rfl

/-- A list is accepted as wire permutation exactly when it is one, and nothing
else changes. -/
theorem guarded_rewire (c : Circuit) (map : List Nat) :
    Guarded (rewire map) c (IsRangePermutation c.wireCount map) () { c with rewiring := map } := by
  unfold Guarded
  rw [RangePermutation.isRangePermutation_iff]
  unfold rewire
  by_cases hlength : map.length = c.wireCount
  · cases hfault : RangePermutation.firstFault c.wireCount map with
    | none =>
      refine .inl ⟨⟨hlength, rfl⟩, ?_⟩
      rw [get_bind, if_neg (not_not_intro hlength), hfault]
      rfl
    | some fault =>
      refine .inr ⟨by simp, .rewiring (.entry fault), ?_⟩
      rw [get_bind, if_neg (not_not_intro hlength), hfault]
      rfl
  · refine .inr ⟨fun h => hlength h.1, .rewiring (.length c.wireCount map.length), ?_⟩
    rw [get_bind, if_pos hlength]
    rfl

end Circuit

end CircuitSynthesis
