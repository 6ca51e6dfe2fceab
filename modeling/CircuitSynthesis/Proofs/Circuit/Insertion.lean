import CircuitSynthesis.Proofs.Circuit.Compaction

/-!
# Appending a gate, as a whole

Whether a gate is accepted is decided in several places: a table of operand
counts, a scan of the operands for kinds and repetitions, and a look-up of each
operand in the circuit. Together they ask for what `Accepts` states, and for
nothing else (`Threaded.accepts_iff_admits`). An accepted gate becomes a new
node, put just before the output of each of its wires; in the graph the edge
into that output makes way for two edges through the new node. Everything else
stays as it was, and a gate that is not accepted changes nothing
(`append_inserts`).
-/

namespace CircuitSynthesis

/-! ## Operand counts and kinds -/

/-- The operand counts of the operations: a control and a target, any number of
controls with targets to flip, two targets, or a single target. -/
inductive Operation.Takes : Operation → Nat → Nat → Prop where
  | controlled {op : Operation} : op = .cx ∨ op = .cz → Takes op 1 1
  | multiplyControlled {op : Operation} (controls : Nat) {targets : Nat} :
      op = .mcx ∨ op = .mcz → 1 ≤ targets → Takes op controls targets
  | pair {op : Operation} : op = .swap ∨ op = .measure → Takes op 0 2
  | single {op : Operation} : op ∉ [.cx, .cz, .mcx, .mcz, .swap, .measure] → Takes op 0 1

theorem Operation.accepts_iff_takes {op : Operation} {controls targets : Nat} :
    op.accepts controls targets = true ↔ op.Takes controls targets := by
  constructor
  · intro h
    cases op
    case cx | cz =>
      obtain ⟨rfl, rfl⟩ : controls = 1 ∧ targets = 1 := by simpa [accepts] using h
      exact .controlled (by simp)
    case mcx | mcz => exact .multiplyControlled _ (by simp) (by simpa [accepts] using h)
    case swap | measure =>
      obtain ⟨rfl, rfl⟩ : controls = 0 ∧ targets = 2 := by simpa [accepts] using h
      exact .pair (by simp)
    all_goals
      obtain ⟨rfl, rfl⟩ : controls = 0 ∧ targets = 1 := by simpa [accepts] using h
      exact .single (by simp)
  · rintro (h | ⟨_, h, htargets⟩ | h | h)
    · rcases h with rfl | rfl <;> rfl
    · rcases h with rfl | rfl <;> simpa [accepts] using htargets
    · rcases h with rfl | rfl <;> rfl
    · cases op <;> first | rfl | simp at h

theorem Operation.operandKind_eq_cbit_iff {op : Operation} {i : Nat} :
    op.operandKind i = .cbit ↔ op = .measure ∧ i = 1 := by
  unfold operandKind
  split <;> simp_all

theorem Operation.Takes.controls_eq_zero {controls targets : Nat}
    (h : Takes .measure controls targets) : controls = 0 := by
  rcases h with h | ⟨_, h, -⟩ | - | -
  · simp at h
  · simp at h
  · rfl
  · rfl

theorem Wire.Kind.eq_iff {k k' : Wire.Kind} : k = k' ↔ (k = .cbit ↔ k' = .cbit) := by
  cases k <;> cases k' <;> simp

namespace Gate

variable {g : Gate}

/-- A classical bit stands exactly where a measurement writes to. -/
structure KindsFit (g : Gate) : Prop where
  controls : ∀ w ∈ g.controls, w.kind = .qubit
  targets : ∀ (i : Nat) (w : Wire), g.targets[i]? = some w →
    (w.kind = .cbit ↔ g.operation = .measure ∧ i = 1)

/-- The scan counts places over controls and targets, but a measurement has no
controls. -/
theorem kindsFit_iff (hcounts : g.operation.Takes g.controls.length g.targets.length) :
    g.KindsFit ↔
      ∀ i (h : i < g.operands.length), g.operands[i].kind = g.operation.operandKind i := by
  have hmeasure : g.operation = .measure → g.controls.length = 0 := by
    intro hop
    rw [hop] at hcounts
    exact hcounts.controls_eq_zero
  constructor
  · intro h i hi
    rw [Wire.Kind.eq_iff, Operation.operandKind_eq_cbit_iff]
    by_cases hcontrol : i < g.controls.length
    · have hkind : g.operands[i].kind = .qubit := by
        simp only [operands, List.getElem_append_left hcontrol]
        exact h.controls _ (List.getElem_mem hcontrol)
      rw [hkind]
      refine iff_of_false (by simp) fun hop => ?_
      have := hmeasure hop.1
      omega
    · have htarget : g.targets[i - g.controls.length]? = some g.operands[i] := by
        rw [← List.getElem?_append_right (Nat.not_lt.mp hcontrol)]
        exact List.getElem?_eq_getElem hi
      rw [h.targets _ _ htarget]
      refine and_congr_right fun hop => ?_
      rw [hmeasure hop, Nat.sub_zero]
  · intro h
    have hplace : ∀ (i : Nat) (w : Wire), g.operands[i]? = some w →
        (w.kind = .cbit ↔ g.operation = .measure ∧ i = 1) := by
      intro i w hw
      obtain ⟨hi, rfl⟩ := List.getElem?_eq_some_iff.mp hw
      rw [h i hi, Operation.operandKind_eq_cbit_iff]
    constructor
    · intro w hw
      obtain ⟨i, hi, rfl⟩ := List.mem_iff_getElem.mp hw
      have hoperand : g.operands[i]? = some g.controls[i] := by
        rw [operands, List.getElem?_append_left hi, List.getElem?_eq_getElem hi]
      rw [Wire.Kind.eq_iff, hplace i _ hoperand]
      refine iff_of_false (fun hop => ?_) (by simp)
      have := hmeasure hop.1
      omega
    · intro i w hw
      have hoperand : g.operands[g.controls.length + i]? = some w := by
        rw [operands, List.getElem?_append_right (Nat.le_add_right _ _), Nat.add_sub_cancel_left,
          hw]
      rw [hplace _ w hoperand]
      refine and_congr_right fun hop => ?_
      rw [hmeasure hop, Nat.zero_add]

end Gate

namespace Circuit

variable {c d : Circuit} {g : Gate} {w : Wire} {i : Nat} {t : Track}

theorem Threaded.isSome_track?_iff (h : c.Threaded) :
    (c.track? w).isSome = true ↔ w.positive ∈ c.wires := by
  constructor
  · intro hw
    obtain ⟨t, ht, -⟩ := exists_track_of_isSome hw
    rw [← h.wire_eq_positive hw ht]
    exact List.mem_map_of_mem (Array.mem_toList_iff.mpr (Array.mem_of_getElem? ht))
  · intro hw
    obtain ⟨t, ht, hwire⟩ := List.mem_map.mp hw
    obtain ⟨i, hi⟩ := Array.mem_iff_getElem?.mp (Array.mem_toList_iff.mp ht)
    have hindex : i = w.index := by
      rw [← (h.threads i t hi).index_eq, hwire]
      rfl
    rw [track?, ← hindex, hi, Option.filter_some, hwire]
    simp [Wire.positive, Wire.withPolarity]

/-- What a circuit asks of a gate: operand counts that fit the operation, wires
of the right kinds, none of them twice, and all of them its own. -/
structure Accepts (c : Circuit) (g : Gate) : Prop where
  counts : g.operation.Takes g.controls.length g.targets.length
  kinds : g.KindsFit
  distinct : (g.operands.map Wire.positive).Nodup
  onWires : ∀ w ∈ g.operands, w.positive ∈ c.wires

theorem Threaded.accepts_iff_admits (h : c.Threaded) : c.Accepts g ↔ c.Admits g := by
  have hdistinct : (g.operands.map Wire.positive).Nodup ↔
      g.operands.Pairwise fun v w => v.sameWire w = false := by
    rw [List.Nodup, List.pairwise_map]
    refine ⟨.imp ?_, .imp ?_⟩ <;> simp [← Wire.sameWire_iff_positive_eq]
  constructor
  · rintro ⟨hcounts, hkinds, hnodup, hwires⟩
    refine ⟨(Gate.validate_eq_ok_iff g).mpr ?_, fun w hw => h.isSome_track?_iff.mpr (hwires w hw)⟩
    exact ⟨Operation.accepts_iff_takes.mpr hcounts, (Gate.kindsFit_iff hcounts).mp hkinds,
      hdistinct.mp hnodup⟩
  · rintro ⟨hvalid, hwires⟩
    obtain ⟨haccepts, hkinds, hpairwise⟩ := (Gate.validate_eq_ok_iff g).mp hvalid
    have hcounts := Operation.accepts_iff_takes.mp haccepts
    exact ⟨hcounts, (Gate.kindsFit_iff hcounts).mpr hkinds, hdistinct.mpr hpairwise,
      fun w hw => h.isSome_track?_iff.mp (hwires w hw)⟩

/-! ## What an accepted gate changes -/

end Circuit

/-- The edge into the output of a wire. -/
def Track.lastSegment (t : Track) : Edge := ⟨t.last, t.output, t.declared.wire⟩

/-- The two edges through a node that is put before the output. -/
def Track.detour (t : Track) (id : Nat) : List Edge :=
  [⟨t.last, id, t.declared.wire⟩, ⟨id, t.output, t.declared.wire⟩]

theorem Track.perm_segments_extend (t : Track) (id : Nat) :
    ((t.extend id).segments ++ [t.lastSegment]).Perm (t.detour id ++ t.segments) := by
  rw [segments_extend, segments_eq, ← List.append_assoc]
  exact List.perm_append_comm.append_right _

namespace Circuit

variable {c d : Circuit} {g : Gate} {w : Wire} {i : Nat} {t : Track}

/-- The second circuit is the first one with a gate at the end of the wires
that it acts on. -/
structure Inserted (c : Circuit) (g : Gate) (d : Circuit) : Prop where
  /-- The nodes are the old ones with their tags, and the gate without any. -/
  nodes_eq : d.nodes = c.nodes.push (.ofContent (.gate g))
  declarations_eq : d.declarations = c.declarations
  /-- The gate comes last in the order of the gates. -/
  gateOrder_eq : d.gateOrder = c.gateOrder.push c.size
  labels_eq : d.labels = c.labels
  wireByLabel?_eq : ∀ label, d.wireByLabel? label = c.wireByLabel? label
  rewiring_eq : d.rewiring = c.rewiring
  qubitCount_eq : d.qubitCount = c.qubitCount
  /-- On a wire of the gate, the new node stands directly before the output. -/
  path_eq : ∀ (i : Nat) (t : Track), c.tracks[i]? = some t → g.touches t.declared.wire = true →
    ∃ t', d.tracks[i]? = some t' ∧ t'.declared = t.declared ∧
      t'.path = t.front ++ [c.size, t.output]
  /-- The other wires have the nodes they had. -/
  track_eq : ∀ (i : Nat) (t : Track), c.tracks[i]? = some t → g.touches t.declared.wire = false →
    d.tracks[i]? = some t
  /-- On each wire of the gate, two edges have taken the place of one. -/
  edges_perm :
    let touched := c.tracks.toList.filter fun t => g.touches t.declared.wire
    (d.edges ++ touched.map Track.lastSegment).Perm (touched.flatMap (·.detour c.size) ++ c.edges)

theorem perm_flatMap_segments_grown (g : Gate) (id : Nat) (tracks : List Track) :
    let touched := tracks.filter fun t => g.touches t.declared.wire
    ((tracks.map (grown g id)).flatMap Track.segments ++ touched.map Track.lastSegment).Perm
      (touched.flatMap (·.detour id) ++ tracks.flatMap Track.segments) := by
  induction tracks with
  | nil => exact .refl _
  | cons t tracks ih =>
    refine List.perm_iff_count.mpr fun e => ?_
    have hrest := List.perm_iff_count.mp ih e
    simp only [List.map_cons, List.flatMap_cons, List.count_append] at hrest ⊢
    by_cases htouches : g.touches t.declared.wire = true
    · have hfirst := List.perm_iff_count.mp (t.perm_segments_extend id) e
      rw [List.filter_cons, if_pos htouches, grown, if_pos htouches, List.map_cons,
        List.flatMap_cons]
      simp only [List.count_append, List.count_cons, List.count_nil] at hfirst ⊢
      omega
    · rw [List.filter_cons, if_neg htouches, grown, if_neg htouches]
      omega

theorem Threaded.tracks_place (h : c.Threaded) (hg : c.Admits g) :
    (c.place g).tracks = c.tracks.map (grown g c.nodes.size) := by
  apply Array.ext_getElem?
  intro i
  rw [h.getElem?_tracks_place hg, Array.getElem?_map]

theorem Threaded.inserted_place (h : c.Threaded) (hg : c.Admits g) :
    Inserted c g (c.place g) where
  nodes_eq := place_nodes c g
  declarations_eq := place_declarations c g
  gateOrder_eq := place_gateOrder c g
  labels_eq := place_labels c g
  wireByLabel?_eq label := by rw [wireByLabel?, place_labels, wireByLabel?]
  rewiring_eq := place_rewiring c g
  qubitCount_eq := place_qubitCount c g
  path_eq i t ht htouches := by
    refine ⟨t.extend c.size, ?_, rfl, ?_⟩
    · rw [h.getElem?_tracks_place hg, ht, Option.map_some, grown, if_pos htouches]
      rfl
    · rw [Track.path_eq, Track.front_extend, List.append_assoc]
      rfl
  track_eq i t ht htouches := by
    rw [h.getElem?_tracks_place hg, ht, Option.map_some, grown, htouches]
    rfl
  edges_perm := by
    have hedges := (h.place hg).edges_perm
    rw [h.tracks_place hg, Array.toList_map] at hedges
    have hgrown := perm_flatMap_segments_grown g c.size c.tracks.toList
    exact (hedges.append_right _).trans (hgrown.trans (h.edges_perm.symm.append_left _))

/-- **Insertion.** A reachable circuit takes a gate exactly when its operand
counts fit, its wires have the right kinds, none occurs twice in any polarity
and all belong to the circuit. The gate then gets the next number and stands
at the end of its wires, and nothing else changes. A gate that is not taken
leaves the whole circuit as it was. -/
theorem append_inserts (hc : c.Reachable) (g : Gate) :
    ((∃ id d, append g c = .ok id d) ↔ c.Accepts g) ∧
      (∀ id d, append g c = .ok id d →
        id = c.size ∧ Inserted c g d ∧ (Request.append g).perform c = d ∧
          Edit.emit g c = .ok () d) ∧
      ∀ e d, append g c = .error e d →
        d = c ∧ (Request.append g).perform c = c ∧ Edit.emit g c = .error (.circuit e) c := by
  have hthreaded := hc.sound.toThreaded
  have happend := guarded_append c g
  refine ⟨?_, fun id d hok => ?_, fun e d herror => ?_⟩
  · rw [hthreaded.accepts_iff_admits]
    exact happend.atomic.succeeds_iff
  · obtain ⟨hadmits, rfl, rfl⟩ := happend.eq_ok_iff.mp hok
    refine ⟨rfl, hthreaded.inserted_place hadmits, ?_, (Edit.guarded_emit c g).eq_ok hadmits⟩
    rw [Request.perform, stateAfter, hok]
  · obtain rfl := happend.atomic.unchanged e d herror
    refine ⟨rfl, ?_, ?_⟩
    · rw [Request.perform, stateAfter, herror]
    · show EStateM.bind (Edit.ofChange _) _ d = _
      rw [EStateM.bind, Edit.ofChange_of_error herror]

/-- A classical bit between two qubits that are joined by a marked gate. -/
def register : Circuit := ofHistory [.addWire .qubit, .addNamedWire .cbit "result",
  .addWire .qubit, .append (.mcx [(Wire.qubit 0).complement] [.qubit 2]), .setMarked 6 true,
  .rewire [2, 0, 1]]

/-- A complemented qubit is measured into the classical bit. A measurement with
its operands exchanged is not taken. -/
theorem append_inserts_measure :
    let g : Gate := ⟨.measure, [], [(Wire.qubit 2).complement, .cbit 1]⟩
    let exchanged : Gate := ⟨.measure, [], [.cbit 1, .qubit 2]⟩
    register.Reachable ∧ register.isMarked 6 = true ∧
      (∃ d, append g register = .ok 7 d ∧ Inserted register g d ∧ d.rewiring = [2, 0, 1] ∧
        ∃ t, d.tracks[2]? = some t ∧ t.path = [4, 6, 7, 5]) ∧
      ¬register.Accepts exchanged ∧ (Request.append exchanged).perform register = register := by
  intro g exchanged
  have hc : register.Reachable := ⟨_, rfl⟩
  refine ⟨hc, rfl, ?_, ?_, ?_⟩
  · obtain ⟨hiff, hok, -⟩ := append_inserts hc g
    have haccepts : register.Accepts g := by
      refine ⟨.pair (.inr rfl), ⟨by simp [g], ?_⟩, by decide, by decide⟩
      rintro (_ | _ | i) w hw
      all_goals
        simp only [g, List.getElem?_cons_zero, List.getElem?_cons_succ, List.getElem?_nil,
          Option.some.injEq, reduceCtorEq] at hw
      · subst hw
        decide
      · subst hw
        decide
    obtain ⟨id, d, happend⟩ := hiff.mpr haccepts
    obtain ⟨rfl, hinserted, -⟩ := hok id d happend
    obtain ⟨t, ht, -, hpath⟩ := hinserted.path_eq 2 _ rfl rfl
    exact ⟨d, happend, hinserted, hinserted.rewiring_eq, t, ht, hpath⟩
  · intro haccepts
    exact absurd ((haccepts.kinds.targets 0 _ rfl).mp rfl).2 (by decide)
  · obtain ⟨-, -, herror⟩ := append_inserts hc exchanged
    exact (herror _ _ rfl).2.1

end Circuit

end CircuitSynthesis
