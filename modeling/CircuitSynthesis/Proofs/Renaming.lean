import CircuitSynthesis.Proofs.Polarity

/-!
# Engines do elsewhere what they do on their own

An engine counts its qubits from zero and looks up the wire of each one when
it emits a gate. So on a placement it appends the gates of the circuit that it
builds on qubits of its own, with the wires renamed (`Gate.renamed`). Nothing
that was there before changes, apart from the entries of the wire permutation
at the placed qubits (`Extends`). The number of gates that an engine reports
in the end is the number it has appended (`engines_relocate`).
-/

namespace CircuitSynthesis

/-! ## Renaming -/

/-- The gate with the wires of a placement in place of the positions of its
operands. -/
def Gate.renamed (p : Placement) (g : Gate) : Gate :=
  { g with
    controls := g.controls.map fun w => p.wire w.index
    targets := g.targets.map fun w => p.wire w.index }

theorem PhaseStep.renamed_toGate (p : Placement) (n : Nat) (s : PhaseStep) :
    (s.toGate ((List.range n).map Wire.qubit)).renamed p = s.toGate p := by
  cases s <;>
    simp [toGate, Cnot.toGate, Gate.cx, Gate.rotationZ, Gate.renamed, Circuit.wire_ofQubits]

theorem PhaseStep.map_renamed_toGate (p : Placement) (n : Nat) (steps : List PhaseStep) :
    (steps.map (toGate ((List.range n).map Wire.qubit))).map (Gate.renamed p) =
      steps.map (toGate p) := by
  rw [List.map_map]
  exact List.map_congr_left fun s _ => renamed_toGate p n s

theorem Placement.map_wire_select {p : Placement} (hpositive : ∀ w ∈ p, w.polarity = .positive)
    (s : Nat) :
    (select ((List.range p.length).map Wire.qubit) s).map (fun w => p.wire w.index) =
      p.select s := by
  rw [select_eq_map, select_eq_map, List.map_map, List.length_map, List.length_range]
  refine List.map_congr_left fun i hi => ?_
  have hmem : p.wire i ∈ p := wire_mem (List.mem_range.mp (List.mem_filter.mp hi).1)
  have hself : (p.wire i).positive = p.wire i :=
    Wire.positive_eq_self (by simp [Wire.isComplemented, hpositive _ hmem])
  simp [Circuit.wire_ofQubits, hself]

theorem Toffoli.renamed_toGate {p : Placement} (hpositive : ∀ w ∈ p, w.polarity = .positive)
    (g : Toffoli) : (g.toGate ((List.range p.length).map Wire.qubit)).renamed p = g.toGate p := by
  simp [toGate, Gate.mcx, Gate.renamed, Placement.map_wire_select hpositive]

theorem Toffoli.indices_toGate_subset (p : Placement) (g : Toffoli) :
    (g.toGate p).indices ⊆ p.map Wire.index := by
  have hselect (s : Nat) {w : Wire} (hw : w ∈ p.select s) : w.index ∈ p.map Wire.index := by
    obtain ⟨i, hi, -, rfl⟩ := Placement.mem_select.mp hw
    exact List.mem_map.mpr ⟨p.wire i, Placement.wire_mem hi, rfl⟩
  intro i hi
  obtain ⟨w, hw, rfl⟩ := List.mem_map.mp hi
  exact (List.mem_append.mp hw).elim (hselect _) (hselect _)

/-! ## What stays -/

namespace Circuit

variable {c d e : Circuit} {p : Placement} {gates gates' : List Gate}

/-- The second circuit is the first one with gates appended on the wires of a
placement, which come last in the order of the gates. Its wires and labels, its
earlier nodes with their tags, and what is on the other wires have stayed as they
were; the wire permutation differs at the placed qubits at most. -/
structure Extends (c : Circuit) (p : Placement) (gates : List Gate) (d : Circuit) : Prop where
  nodes_eq : d.nodes.toList = c.nodes.toList ++ gates.map fun g => .ofContent (.gate g)
  gateOrder_eq : d.gateOrder.toList = c.gateOrder.toList ++ List.range' c.size gates.length
  declarations_eq : d.declarations = c.declarations
  labels_eq : d.labels = c.labels
  qubitCount_eq : d.qubitCount = c.qubitCount
  track_eq : ∀ i ∉ p.map Wire.index, d.tracks[i]? = c.tracks[i]?
  rewiring_length : d.rewiring.length = c.rewiring.length
  rewiring_eq : ∀ i ∉ p.map Wire.index, d.rewiring[i]? = c.rewiring[i]?

theorem Extends.refl (c : Circuit) (p : Placement) : Extends c p [] c :=
  ⟨by simp, by simp, rfl, rfl, rfl, fun _ _ => rfl, rfl, fun _ _ => rfl⟩

theorem Extends.size_eq (h : Extends c p gates d) : d.size = c.size + gates.length := by
  simpa [size] using congrArg List.length h.nodes_eq

theorem Extends.gateCount_eq (h : Extends c p gates d) :
    d.gateCount = c.gateCount + gates.length := by
  simpa [gateCount] using congrArg List.length h.gateOrder_eq

theorem Extends.trans (h : Extends c p gates d) (h' : Extends d p gates' e) :
    Extends c p (gates ++ gates') e where
  nodes_eq := by rw [h'.nodes_eq, h.nodes_eq, List.map_append, List.append_assoc]
  gateOrder_eq := by
    rw [h'.gateOrder_eq, h.gateOrder_eq, h.size_eq, List.append_assoc, List.range'_append_1,
      List.length_append]
  declarations_eq := h'.declarations_eq.trans h.declarations_eq
  labels_eq := h'.labels_eq.trans h.labels_eq
  qubitCount_eq := h'.qubitCount_eq.trans h.qubitCount_eq
  track_eq i hi := (h'.track_eq i hi).trans (h.track_eq i hi)
  rewiring_length := h'.rewiring_length.trans h.rewiring_length
  rewiring_eq i hi := (h'.rewiring_eq i hi).trans (h.rewiring_eq i hi)

theorem getElem?_tracks_foldl_attach_of_notMem (id : Nat) {ws : List Wire} {i : Nat}
    (hi : i ∉ ws.map Wire.index) (c : Circuit) :
    (ws.foldl (attach id) c).tracks[i]? = c.tracks[i]? := by
  induction ws generalizing c with
  | nil => rfl
  | cons w ws ih =>
    obtain ⟨hw, hws⟩ : ¬i = w.index ∧ i ∉ ws.map Wire.index := by simpa using hi
    rw [List.foldl_cons, ih hws, getElem?_tracks_attach, if_neg (Ne.symm hw)]

/-- Placing a gate extends the circuit on every placement with its wires. -/
theorem extends_place {g : Gate} (hg : g.indices ⊆ p.map Wire.index) :
    Extends c p [g] (c.place g) where
  nodes_eq := foldl_place_nodes [g] c
  gateOrder_eq := by simp [size]
  declarations_eq := place_declarations c g
  labels_eq := place_labels c g
  qubitCount_eq := place_qubitCount c g
  track_eq i hi := by
    have hoperands : i ∉ (g.operands.map Wire.positive).map Wire.index := by
      rw [List.map_map]
      exact fun hmem => hi (hg hmem)
    exact getElem?_tracks_foldl_attach_of_notMem _ hoperands _
  rewiring_length := by rw [place_rewiring]
  rewiring_eq i _ := by rw [place_rewiring]

theorem extends_foldl_place (hgates : ∀ g ∈ gates, g.indices ⊆ p.map Wire.index) :
    Extends c p gates (gates.foldl place c) := by
  induction gates generalizing c with
  | nil => exact .refl c p
  | cons g gates ih =>
    obtain ⟨hg, hgates⟩ := List.forall_mem_cons.mp hgates
    exact (extends_place hg).trans (ih hgates)

/-- Steps on an accepted placement extend the circuit on its wires. -/
theorem extends_steps {n : Nat} (hp : p.Fits c n) {steps : List PhaseStep}
    (hsteps : ∀ s ∈ steps, s.WellFormed n) :
    Extends c p (steps.map (·.toGate p)) ((steps.map (·.toGate p)).foldl place c) := by
  refine extends_foldl_place (List.forall_mem_map.mpr fun s hs => List.map_subset _ fun w hw => ?_)
  exact PhaseStep.mem_of_mem_operands hp (hsteps s hs) hw

/-- A row order on the placed qubits moves no other entry of the wire
permutation. -/
theorem getElem?_composeOrder_of_notMem {i : Nat} (hi : i ∉ p.map Wire.index)
    (rewiring order : List Nat) : (Cnot.composeOrder rewiring p order)[i]? = rewiring[i]? := by
  rw [Cnot.composeOrder_eq_foldl]
  refine getElem?_foldl_set_of_notMem fun hmem => hi ?_
  rw [Cnot.orderWrites, List.map_map] at hmem
  obtain ⟨⟨w, r⟩, hwr, rfl⟩ := List.mem_map.mp hmem
  exact List.mem_map_of_mem (List.of_mem_zip hwr).1

theorem extends_placeOn {n : Nat} (hp : p.Fits c n) {r : Cnot.Recipe}
    (hr : ∀ g ∈ r.gates, g.WellFormed n) :
    Extends c p ((r.gates.map PhaseStep.cnot).map (·.toGate p)) (r.placeOn c p) := by
  have hsteps : ∀ s ∈ r.gates.map PhaseStep.cnot, s.WellFormed n := List.forall_mem_map.mpr hr
  have hgates := extends_steps hp hsteps
  rw [List.map_map] at hgates ⊢
  refine ⟨hgates.nodes_eq, hgates.gateOrder_eq, hgates.declarations_eq, hgates.labels_eq,
    hgates.qubitCount_eq, hgates.track_eq, ?_, ?_⟩
  · unfold Cnot.Recipe.placeOn
    cases r.order with
    | none => rfl
    | some order =>
      show (Cnot.composeOrder c.rewiring p order).length = _
      rw [Cnot.composeOrder_eq_foldl, length_foldl_set]
  · intro i hi
    unfold Cnot.Recipe.placeOn
    cases r.order with
    | none => rfl
    | some order => exact getElem?_composeOrder_of_notMem hi c.rewiring order

end Circuit

open Circuit (Extends)

/-! ## What is reported -/

/-- The last event is that an engine finished, with the number of gates by which
the circuit has grown. Without an engine to report it there is no event. -/
def Reports (engine : Option Engine) (c : Circuit) (events : List Event) (d : Circuit) : Prop :=
  ∃ k, d.gateCount = c.gateCount + k ∧ events.getLast? = engine.map (.finished · k)

variable {c d : Circuit} {p : Placement} {events : List Event}

theorem Edit.gateCount_of_emitAll {gates : List Gate} {u : Unit} (h : emitAll gates c = .ok u d) :
    d.gateCount = c.gateCount + gates.length := by
  rw [eq_foldl_place_of_emitAll h]
  exact Circuit.foldl_place_gateCount gates c

theorem Cascade.of_onCircuit_eq_ok {α : Type} {edit : Edit α} {w w' : Workspace} {a : α}
    (h : Workspace.onCircuit edit w = .ok a w') : edit w.circuit = .ok a w'.circuit := by
  unfold Workspace.onCircuit at h
  cases hedit : edit w.circuit with
  | ok b d =>
    rw [hedit] at h
    cases h
    rfl
  | error e d =>
    rw [hedit] at h
    cases h

theorem Cascade.reports {width : Nat} {direction : Direction} {w w' : Workspace}
    (h : edit p width direction w = .ok events w') :
    Reports (some .cascade) w.circuit events w'.circuit := by
  obtain ⟨_, -, h⟩ := lift_bind_eq_ok_iff.mp ((get_bind _).symm.trans h)
  -- The table is put down before the gates are emitted.
  obtain ⟨_, w₁, hset, h⟩ := bind_eq_ok_iff.mp h
  cases hset
  obtain ⟨_, w₂, hemit, h⟩ := bind_eq_ok_iff.mp h
  cases h
  refine ⟨(reduce direction w.table).gates.length, ?_, by simp⟩
  rw [Edit.gateCount_of_emitAll (of_onCircuit_eq_ok hemit), List.length_map]

theorem Cnot.reports {m : BinaryMatrix} {o : CnotOptions} (h : edit p m o c = .ok events d) :
    Reports (some .cnot) c events d := by
  obtain ⟨_, -, h⟩ := lift_bind_eq_ok_iff.mp ((get_bind _).symm.trans h)
  obtain ⟨r, -, h⟩ := lift_bind_eq_ok_iff.mp h
  obtain ⟨_, c₁, hemit, h⟩ := bind_eq_ok_iff.mp h
  obtain ⟨_, c₂, hrewire, h⟩ := bind_eq_ok_iff.mp h
  cases h
  obtain ⟨rewiring, rfl⟩ := Edit.exists_rewiring_of_rewire? hrewire
  refine ⟨r.gates.length, ?_, by simp⟩
  show c₁.gateCount = _
  rw [Edit.gateCount_of_emitAll hemit, List.length_map]

/-- The CNOTs for a residual map are counted by what they add to the circuit. -/
theorem ParityNetwork.reports {terms : PhasePolynomial} {o : ParityOptions}
    (h : edit p terms o c = .ok events d) : Reports (some .parity) c events d := by
  -- The checks come first and change nothing.
  obtain ⟨_, -, h⟩ := lift_bind_eq_ok_iff.mp h
  obtain ⟨_, -, h⟩ := lift_bind_eq_ok_iff.mp ((get_bind _).symm.trans h)
  obtain ⟨_, -, h⟩ := lift_bind_eq_ok_iff.mp h
  obtain ⟨g, -, h⟩ := lift_bind_eq_ok_iff.mp h
  obtain ⟨_, -, h⟩ := lift_bind_eq_ok_iff.mp h
  obtain ⟨_, c₁, hemit, h⟩ := bind_eq_ok_iff.mp h
  obtain ⟨reached, -, h⟩ := lift_bind_eq_ok_iff.mp h
  obtain ⟨inverse, -, h⟩ := lift_bind_eq_ok_iff.mp h
  obtain ⟨residual, -, h⟩ := lift_bind_eq_ok_iff.mp h
  have hwalk := Edit.gateCount_of_emitAll hemit
  rw [List.length_map] at hwalk
  split at h
  · cases h
    exact ⟨_, hwalk, rfl⟩
  · obtain ⟨corrections, c₂, hcorrect, h⟩ := bind_eq_ok_iff.mp ((get_bind _).symm.trans h)
    obtain ⟨k, hk, -⟩ := Cnot.reports hcorrect
    cases h
    refine ⟨_, ?_, List.getLast?_concat⟩
    omega

theorem Staircase.reports {terms : PhasePolynomial} {order : WalkOrder}
    (h : edit p terms order c = .ok events d) :
    Reports (if terms.isEmpty then none else some (.staircase order)) c events d := by
  obtain ⟨_, -, h⟩ := lift_bind_eq_ok_iff.mp h
  obtain ⟨_, -, h⟩ := lift_bind_eq_ok_iff.mp ((get_bind _).symm.trans h)
  obtain ⟨_, -, h⟩ := lift_bind_eq_ok_iff.mp h
  split at h
  · next hempty =>
    cases h
    rw [if_pos hempty]
    exact ⟨0, rfl, rfl⟩
  · next hterms =>
    obtain ⟨_, c₁, hemit, h⟩ := bind_eq_ok_iff.mp h
    cases h
    rw [if_neg hterms]
    refine ⟨_, ?_, rfl⟩
    rw [Edit.gateCount_of_emitAll hemit, List.length_map]

/-! ## All engines -/

/-- The second result is a circuit extended by the gates of the first under
their new names, and their number was reported last, if anything was. -/
structure Relocates (c : Circuit) (p : Placement) (engine : Option Engine)
    (s r : Synthesized) : Prop extends
    Extends c p (s.circuit.liveGates.map (Gate.renamed p)) r.circuit where
  reported : r.events.getLast? = engine.map (.finished · s.circuit.liveGates.length)

theorem Relocates.intro {engine : Option Engine} {s r : Synthesized} {gates : List Gate}
    (hgates : s.circuit.liveGates.map (Gate.renamed p) = gates)
    (hextends : Extends c p gates r.circuit) (hreports : Reports engine c r.events r.circuit) :
    Relocates c p engine s r := by
  subst hgates
  obtain ⟨k, hk, hlast⟩ := hreports
  have hcount := hextends.gateCount_eq
  rw [List.length_map] at hcount
  obtain rfl : k = s.circuit.liveGates.length := by omega
  exact ⟨hextends, hlast⟩

theorem Relocates.of_steps {engine : Option Engine} {s r : Synthesized} (n : Nat)
    {steps : List PhaseStep}
    (hgates : s.circuit.liveGates = steps.map (·.toGate ((List.range n).map Wire.qubit)))
    (hextends : Extends c p (steps.map (·.toGate p)) r.circuit)
    (hreports : Reports engine c r.events r.circuit) : Relocates c p engine s r := by
  refine .intro ?_ hextends hreports
  rw [hgates]
  exact PhaseStep.map_renamed_toGate p n steps

theorem Cascade.of_appendTo_eq_ok {f : ReversibleFunction} {direction : Direction} {r : Result}
    (h : appendTo c p f direction = .ok r) :
    edit p f.width direction ⟨c, f.table⟩ = .ok r.events ⟨r.circuit, r.table⟩ := by
  unfold appendTo at h
  cases hedit : edit p f.width direction ⟨c, f.table⟩ with
  | ok events w =>
    rw [hedit] at h
    cases h
    rfl
  | error e w =>
    rw [hedit] at h
    cases h

theorem Cascade.relocates {f : ReversibleFunction} {direction : Direction} {r : Result}
    (hpositive : ∀ w ∈ p, w.polarity = .positive) (h : appendTo c p f direction = .ok r) :
    ∃ s, synthesize f direction = .ok s ∧ Relocates c p (some .cascade) s r.toSynthesized := by
  have hedit := of_appendTo_eq_ok h
  have hfits := fits_of_appendTo h
  obtain ⟨events, hplaced⟩ := edit_eq_ok hfits direction
  have hextends : Extends c p ((reduce direction f.table).gates.map (·.toGate p)) r.circuit := by
    rw [show r.circuit = _ from congrArg Workspace.circuit (state_unique hedit hplaced)]
    exact Circuit.extends_foldl_place
      (List.forall_mem_map.mpr fun g _ => g.indices_toGate_subset p)
  obtain ⟨events', halone⟩ := appendTo_eq_ok (Circuit.fits_ofQubits f.width) direction
  have hsynthesize : synthesize f direction = .ok
      ⟨((reduce direction f.table).gates.map (·.toGate (Circuit.ofQubits f.width).qubits)).foldl
        Circuit.place (Circuit.ofQubits f.width), events'⟩ := by
    unfold synthesize
    simp only [halone]
    rfl
  refine ⟨_, hsynthesize, .intro ?_ hextends (reports hedit)⟩
  rw [Circuit.foldl_place_liveGates, Circuit.ofQubits_liveGates, List.nil_append,
    Circuit.ofQubits_qubits, List.map_map, ← hfits.length_eq]
  exact List.map_congr_left fun g _ => g.renamed_toGate hpositive

theorem Cnot.relocates {m : BinaryMatrix} {o : CnotOptions} {r : Synthesized} (hm : m.WellFormed)
    (hrewiring : IsRangePermutation c.wireCount c.rewiring) (h : appendTo c p m o = .ok r) :
    ∃ s, synthesize m o = .ok s ∧ Relocates c p (some .cnot) s r := by
  have hedit := Edit.apply_eq_ok_iff.mp h
  have haccept := (edit_atomic hrewiring hm).succeeds_iff.mp ⟨_, _, hedit⟩
  -- One recipe serves the circuit and the qubits of its own.
  obtain ⟨q, events, hq, hrun⟩ := exists_edit_eq_ok hm haccept.invertible
    (CnotOptions.isUsable_iff.mpr haccept.partition_usable)
  have hextends := Circuit.extends_placeOn haccept.fits hq.makes.wellFormed
  rw [← state_unique hedit (hrun c p haccept.fits hrewiring)] at hextends
  have halone := hrun _ _ (Circuit.fits_ofQubits m.size)
    (Circuit.isRangePermutation_rewiring_ofQubits m.size)
  refine ⟨_, Edit.apply_of_eq_ok halone, .of_steps m.size ?_ hextends (reports hedit)⟩
  rw [q.liveGates_placeOn, Circuit.ofQubits_liveGates, List.nil_append, Circuit.ofQubits_qubits]

theorem ParityNetwork.relocates {terms : PhasePolynomial} {o : ParityOptions} {r : Synthesized}
    (htransform : ∀ m ∈ o.transform, m.WellFormed)
    (hrewiring : IsRangePermutation c.wireCount c.rewiring) (h : appendTo c p terms o = .ok r) :
    ∃ s, synthesize p.length terms o = .ok s ∧ Relocates c p (some .parity) s r := by
  have hedit := Edit.apply_eq_ok_iff.mp h
  have haccept := (edit_atomic hrewiring htransform).succeeds_iff.mp ⟨_, _, hedit⟩
  have hsolvable := haccept.solvable htransform
  obtain ⟨q, hq, hrun⟩ := exists_edit_eq_ok hsolvable
  obtain ⟨events, hplaced⟩ := hrun c p haccept.fits hrewiring
  have hwalk := Circuit.extends_steps haccept.fits hsolvable.wellFormed_walk
  have hfits := haccept.fits.congr hwalk.declarations_eq.symm
  have hextends := hwalk.trans (Circuit.extends_placeOn hfits hq.wellFormed)
  rw [← state_unique hedit hplaced, ← List.map_append] at hextends
  obtain ⟨events', halone⟩ := hrun _ _ (Circuit.fits_ofQubits p.length)
    (Circuit.isRangePermutation_rewiring_ofQubits p.length)
  have hsynthesize : synthesize p.length terms o =
      appendTo (Circuit.ofQubits p.length) (Circuit.ofQubits p.length).qubits terms o := by
    unfold synthesize
    rw [admitQubits_of_le hsolvable.width_le]
    rfl
  refine ⟨_, hsynthesize.trans (Edit.apply_of_eq_ok halone),
    .of_steps p.length ?_ hextends (reports hedit)⟩
  rw [q.liveGates_placeOn, Circuit.foldl_place_liveGates, Circuit.ofQubits_liveGates,
    List.nil_append, List.map_append, Circuit.ofQubits_qubits]

theorem Staircase.relocates {terms : PhasePolynomial} {order : WalkOrder} {r : Synthesized}
    (h : appendTo c p terms order = .ok r) :
    ∃ s, synthesize p.length terms order = .ok s ∧
      Relocates c p (if terms.isEmpty then none else some (.staircase order)) s r := by
  have hedit := Edit.apply_eq_ok_iff.mp h
  have haccept := (edit_atomic order).succeeds_iff.mp ⟨_, _, hedit⟩
  have hsolvable : Solvable p.length terms := ⟨haccept.width_le, haccept.masks_fit⟩
  obtain ⟨events, hplaced⟩ := edit_eq_ok order hsolvable haccept.fits
  have hextends := Circuit.extends_steps haccept.fits (wellFormed_walk order p.length terms)
  rw [← state_unique hedit hplaced] at hextends
  obtain ⟨s, hs, -, hgates⟩ := exists_synthesize order hsolvable
  exact ⟨s, hs, .of_steps p.length hgates hextends (reports hedit)⟩

/-- **Relocation.** An engine that succeeds on a reachable circuit, on a
placement with positive entries, has appended the gates of the circuit that it
builds on qubits of its own, with the placed wires in place of these qubits,
and left all else as it was. The last event gives the number of these gates; a
staircase without terms reports nothing. -/
theorem engines_relocate {c : Circuit} (hc : c.Reachable) {p : Placement}
    (hpositive : ∀ w ∈ p, w.polarity = .positive) :
    (∀ (f : ReversibleFunction) direction r, Cascade.appendTo c p f direction = .ok r →
      ∃ s, Cascade.synthesize f direction = .ok s ∧
        Relocates c p (some .cascade) s r.toSynthesized) ∧
    (∀ m o r, m.WellFormed → Cnot.appendTo c p m o = .ok r →
      ∃ s, Cnot.synthesize m o = .ok s ∧ Relocates c p (some .cnot) s r) ∧
    (∀ terms o r, (∀ m ∈ o.transform, m.WellFormed) →
      ParityNetwork.appendTo c p terms o = .ok r →
      ∃ s, ParityNetwork.synthesize p.length terms o = .ok s ∧
        Relocates c p (some .parity) s r) ∧
    ∀ terms order r, Staircase.appendTo c p terms order = .ok r →
      ∃ s, Staircase.synthesize p.length terms order = .ok s ∧
        Relocates c p (if terms.isEmpty then none else some (.staircase order)) s r := by
  have hrewiring := hc.sound.rewiring_perm
  exact ⟨fun f direction r => Cascade.relocates hpositive,
    fun m o r hm => Cnot.relocates hm hrewiring,
    fun terms o r htransform => ParityNetwork.relocates htransform hrewiring,
    fun terms order r => Staircase.relocates⟩

/-- Qubits around a classical bit, with gates on them, one of these marked. -/
def Circuit.inUse : Circuit := ofHistory [.addWire .qubit, .addWire .cbit,
  .append ⟨.measure, [], [.qubit 0, .cbit 1]⟩, .addNamedWire .qubit "b", .addWire .qubit,
  .append (.cx (.qubit 3) (Wire.qubit 0).complement), .setMarked 9 true, .rewire [3, 1, 0, 2]]

theorem engines_relocate_inUse :
    let c := Circuit.inUse
    let p : Placement := [.qubit 3, .qubit 0]
    let m : BinaryMatrix := ⟨[2, 3]⟩
    let terms : PhasePolynomial := ⟨[(2, .turn 1), (3, .radians 0.5)], by decide⟩
    let o : ParityOptions := ⟨some m, ⟨1, false, true⟩⟩
    c.Reachable ∧ (∀ w ∈ p, w.polarity = .positive) ∧
      (∃ r s, Cascade.appendTo c p Cascade.successor .bidirectional = .ok r ∧
        Cascade.synthesize Cascade.successor .bidirectional = .ok s ∧
        Relocates c p (some .cascade) s r.toSynthesized) ∧
      (∃ r s, Cnot.appendTo c p m o.cnot = .ok r ∧ Cnot.synthesize m o.cnot = .ok s ∧
        Relocates c p (some .cnot) s r) ∧
      (∃ r s, ParityNetwork.appendTo c p terms o = .ok r ∧
        ParityNetwork.synthesize 2 terms o = .ok s ∧ Relocates c p (some .parity) s r) ∧
      ∃ r s, Staircase.appendTo c p terms .gray = .ok r ∧
        Staircase.synthesize 2 terms .gray = .ok s ∧
        Relocates c p (some (.staircase .gray)) s r := by
  intro c p m terms o
  have hc : c.Reachable := ⟨_, rfl⟩
  have hpositive : ∀ w ∈ p, w.polarity = .positive := by decide
  have hfits : p.Fits c 2 := Placement.check_eq_ok_iff.mp rfl
  have hmasks : ∀ mask ∈ terms.masks, mask ≠ 0 ∧ mask < 2 ^ p.length := by decide
  have hm : m.WellFormed := ⟨by decide, by decide⟩
  have hunit : IsUnit (rowMatrix m.size m.rows) :=
    isInvertible_iff_isUnit.mp (by decide +kernel)
  have hrewiring := hc.sound.rewiring_perm
  obtain ⟨hcascade, hcnot, hparity, hstaircase⟩ := engines_relocate hc hpositive
  refine ⟨hc, hpositive, ?_, ?_, ?_, ?_⟩
  · obtain ⟨events, h⟩ := Cascade.appendTo_eq_ok (f := Cascade.successor) hfits .bidirectional
    obtain ⟨s, hs, hrelocates⟩ := hcascade _ _ _ h
    exact ⟨_, s, h, hs, hrelocates⟩
  · obtain ⟨events, d, h⟩ := (Cnot.edit_atomic (o := o.cnot) hrewiring hm).succeeds_iff.mpr
      ⟨hfits, hunit, .inr (by decide)⟩
    obtain ⟨s, hs, hrelocates⟩ := hcnot m o.cnot _ hm (Edit.apply_of_eq_ok h)
    exact ⟨_, s, Edit.apply_of_eq_ok h, hs, hrelocates⟩
  · have htransform : ∀ m ∈ o.transform, m.WellFormed := by
      rintro _ ⟨⟩
      exact hm
    obtain ⟨events, d, h⟩ := (ParityNetwork.edit_atomic hrewiring htransform).succeeds_iff.mpr
      ⟨hfits, by decide, hmasks, by rintro _ ⟨⟩; exact ⟨rfl, hunit⟩, .inr (by decide)⟩
    obtain ⟨s, hs, hrelocates⟩ := hparity terms o _ htransform (Edit.apply_of_eq_ok h)
    exact ⟨_, s, Edit.apply_of_eq_ok h, hs, hrelocates⟩
  · obtain ⟨events, d, h⟩ := (Staircase.edit_atomic .gray).succeeds_iff.mpr
      ⟨hfits, by decide, hmasks⟩
    obtain ⟨s, hs, hrelocates⟩ := hstaircase terms .gray _ (Edit.apply_of_eq_ok h)
    exact ⟨_, s, Edit.apply_of_eq_ok h, hs, hrelocates⟩

end CircuitSynthesis
