import CircuitSynthesis.Proofs.History
import CircuitSynthesis.Simulation

/-!
# Leaving out the marked gates

A compacted circuit is built anew, so its nodes may have other numbers than
before. It is built from three things only: the declared wires, the gates that
are not marked and the wire permutation (`compact_eq_rebuild`). All three are
the same afterwards, and nothing is marked any more. What a circuit computes
depends on them alone, so compaction does not change it, and to compact a
second time changes nothing at all (`compact_preserves`).
-/

namespace CircuitSynthesis.Circuit

variable {c : Circuit} {g : Gate}

/-! ## What is kept -/

/-- The circuit with the given wires, gates and wire permutation. -/
def rebuild (declared : List DeclaredWire) (gates : List Gate) (rewiring : List Nat) : Circuit :=
  { gates.foldl place (declared.foldl (fun d w => (d.addWire w.wire.kind w.label).1) empty) with
    rewiring := rewiring }

theorem compact_eq_rebuild (c : Circuit) :
    c.compact = rebuild c.declarations c.liveGates c.rewiring := by
  rw [rebuild, declarations, List.foldl_map]
  rfl

theorem compact_declarations (h : c.Threaded) : c.compact.declarations = c.declarations := by
  show (c.liveGates.foldl place _).declarations = _
  rw [foldl_place_declarations, h.declarations_foldl_addWire]

theorem foldl_addWire_liveGates (tracks : List Track) (c : Circuit) :
    (tracks.foldl (fun d t => (d.addWire t.declared.wire.kind t.declared.label).1) c).liveGates =
      c.liveGates := by
  induction tracks generalizing c with
  | nil => rfl
  | cons t tracks ih => rw [List.foldl_cons, ih, addWire_liveGates]

theorem compact_liveGates (c : Circuit) : c.compact.liveGates = c.liveGates := by
  show (c.liveGates.foldl place _).liveGates = _
  rw [foldl_place_liveGates, foldl_addWire_liveGates]
  rfl

theorem foldl_addWire_wireCount (tracks : List Track) (c : Circuit) :
    (tracks.foldl (fun d t => (d.addWire t.declared.wire.kind t.declared.label).1) c).wireCount =
      c.wireCount + tracks.length := by
  induction tracks generalizing c with
  | nil => rfl
  | cons t tracks ih =>
    have hadded : (c.addWire t.declared.wire.kind t.declared.label).1.wireCount = c.wireCount + 1 :=
      Array.size_push _
    rw [List.foldl_cons, ih, hadded, List.length_cons]
    omega

theorem compact_wireCount (c : Circuit) : c.compact.wireCount = c.wireCount := by
  show (c.liveGates.foldl place _).wireCount = _
  rw [foldl_place_wireCount, foldl_addWire_wireCount]
  simp [empty, wireCount]

/-- To compact a circuit again changes nothing. -/
theorem compact_compact (h : c.Threaded) : c.compact.compact = c.compact := by
  rw [compact_eq_rebuild c.compact, compact_declarations h, compact_liveGates,
    compact_eq_rebuild c]
  rfl

/-! ## Tags -/

/-- No node carries a tag. -/
def Untagged (c : Circuit) : Prop := ∀ n ∈ c.nodes, n.marked = false ∧ n.visited = false

theorem Untagged.addWire (h : c.Untagged) (kind : Wire.Kind) (label : Option String) :
    (c.addWire kind label).1.Untagged := by
  intro n hn
  simp only [Circuit.addWire, Array.mem_push] at hn
  rcases hn with (hn | rfl) | rfl
  · exact h n hn
  · exact ⟨rfl, rfl⟩
  · exact ⟨rfl, rfl⟩

theorem Untagged.place (h : c.Untagged) (g : Gate) : (c.place g).Untagged := by
  intro n hn
  rw [place_nodes, Array.mem_push] at hn
  rcases hn with hn | rfl
  · exact h n hn
  · exact ⟨rfl, rfl⟩

theorem untagged_compact (c : Circuit) : c.compact.Untagged := by
  have hempty : empty.Untagged := by simp [Untagged, empty]
  have hwires := List.foldlRecOn c.tracks.toList
    (fun d t => (d.addWire t.declared.wire.kind t.declared.label).1) hempty
    fun d hd t _ => hd.addWire t.declared.wire.kind t.declared.label
  exact List.foldlRecOn c.liveGates Circuit.place hwires fun d hd g _ => hd.place g

theorem Untagged.isMarked_eq (h : c.Untagged) (id : Nat) : c.isMarked id = false := by
  unfold isMarked
  cases hn : c.nodes[id]? with
  | none => rfl
  | some n => exact (h n (Array.mem_of_getElem? hn)).1

theorem Untagged.isVisited_eq (h : c.Untagged) (id : Nat) : c.isVisited id = false := by
  unfold isVisited
  cases hn : c.nodes[id]? with
  | none => rfl
  | some n => exact (h n (Array.mem_of_getElem? hn)).2

/-- Without marks, all gates are among those that act. -/
theorem Untagged.gateCount_eq (h : c.Untagged) (hindexed : c.Indexed) :
    c.gateCount = c.liveGates.length := by
  have hlive : ∀ id ∈ c.gateOrder.toList, (c.liveGateAt? id).isSome = true := by
    intro id hid
    have hgate := hindexed.mem_gateOrder_iff.mp (Array.mem_toList_iff.mp hid)
    obtain ⟨n, hn⟩ : ∃ n, c.nodes[id]? = some n := ⟨_, Array.getElem?_eq_getElem
      (c.gateOrder_lt id (Array.mem_toList_iff.mp hid))⟩
    have hunmarked := (h n (Array.mem_of_getElem? hn)).1
    simpa [liveGateAt?, gateAt?, hn, Node.liveGate?, hunmarked] using hgate
  rw [liveGates, List.length_filterMap_eq_countP, List.countP_eq_length.mpr hlive, gateCount,
    Array.length_toList]

/-! ## What a circuit computes -/

/-- The second circuit has the wires and the unmarked gates of the first, no
other gates and no tags, and computes the same. -/
structure Compacts (c d : Circuit) : Prop where
  /-- The wires are the same in the same order, with their labels. -/
  declarations_eq : d.declarations = c.declarations
  wireByLabel?_eq : ∀ label, d.wireByLabel? label = c.wireByLabel? label
  qubitCount_eq : d.qubitCount = c.qubitCount
  rewiring_eq : d.rewiring = c.rewiring
  /-- The gates are those that were not marked, in the order they were appended. -/
  gates_eq : d.gates.map Prod.snd = c.gates.map Prod.snd
  gateCount_eq : d.gateCount = c.gates.length
  unmarked : ∀ id, d.isMarked id = false
  unvisited : ∀ id, d.isVisited id = false
  depth_eq : d.depth = c.depth
  simulate_eq : ∀ x, d.simulate x = c.simulate x
  linearPart_eq : d.linearPart = c.linearPart
  phaseOf_eq : ∀ x, d.phaseOf x = c.phaseOf x

/-- **Compaction.** A reachable circuit and its compacted copy have the same
wires, labels, wire permutation and unmarked gates, and compute the same; the
copy has no other gates and no tags. To compact it again gives the same
circuit, down to its nodes and edges. -/
theorem compact_preserves (hc : c.Reachable) :
    Compacts c c.compact ∧ c.compact.compact = c.compact := by
  have hthreaded := hc.sound.toThreaded
  have hindexed := hc.sound.compact.toIndexed
  have hdecl := compact_declarations hthreaded
  have hcount := compact_wireCount c
  have hlive := compact_liveGates c
  have huntagged := untagged_compact c
  refine ⟨⟨hdecl, ?_, ?_, rfl, ?_, ?_, huntagged.isMarked_eq, huntagged.isVisited_eq, ?_, ?_, ?_,
    ?_⟩, compact_compact hthreaded⟩
  · intro label
    rw [wireByLabel?, hindexed.labels_eq, hdecl, ← hc.sound.labels_eq, wireByLabel?]
  · rw [hindexed.qubitCount_eq, hdecl, ← hc.sound.qubitCount_eq]
  · rw [map_snd_gates, map_snd_gates, hlive]
  · rw [huntagged.gateCount_eq hindexed, hlive, ← map_snd_gates, List.length_map]
  · rw [depth, depth, hcount, hlive]
  · intro x
    rw [simulate, simulate, hcount, hlive]
  · rw [linearPart, linearPart, hcount, hlive]
  · intro x
    rw [phaseOf, phaseOf, hcount, hlive]

/-- Wires and gates declared in turns, with a gate and an input that are marked
and a gate that was visited. -/
def tagged : Circuit := ofHistory [.addWire .qubit, .append ⟨.pauli .y, [], [.qubit 0]⟩,
  .addNamedWire .qubit "b", .append (.cx (Wire.qubit 0).complement (.qubit 1)),
  .append ⟨.hadamard, [], [.qubit 1]⟩, .rewire [1, 0], .setMarked 6 true, .setMarked 0 true,
  .setVisited 5 true]

theorem compact_preserves_tagged :
    tagged.Reachable ∧ tagged.isMarked 0 = true ∧ tagged.isVisited 5 = true ∧
      tagged.compact.wireByLabel? "b" = some (.qubit 1) ∧ tagged.compact.rewiring = [1, 0] ∧
      tagged.compact.gateCount = 2 ∧ tagged.compact.isMarked 0 = false ∧
      tagged.compact.simulate 1 = .ok 2 ∧ tagged.compact.phaseOf 1 = .ok (.turn 6) ∧
      tagged.compact.compact = tagged.compact := by
  have hc : tagged.Reachable := ⟨_, rfl⟩
  obtain ⟨h, hagain⟩ := compact_preserves hc
  exact ⟨hc, rfl, rfl, h.wireByLabel?_eq "b", h.rewiring_eq, h.gateCount_eq, h.unmarked 0,
    h.simulate_eq 1, h.phaseOf_eq 1, hagain⟩

end CircuitSynthesis.Circuit
