import CircuitSynthesis.Proofs.Circuit.Placement
import CircuitSynthesis.Proofs.Circuit.Tracks
import Mathlib.Data.List.Induction

/-!
# What is kept a second time

The order of the gates, the labels and the number of qubits repeat what nodes
and declared wires say. A circuit is indexed if they say the same (`Indexed`).
A new gate is a new entry at the end of the order, a new wire is a new entry
among the labels, if it has one, and counts if it is a qubit; nothing else that
can be done to a circuit concerns them.
-/

namespace CircuitSynthesis

/-- The entry of a wire among the labels, if it has one. -/
def DeclaredWire.labelled? (x : DeclaredWire) : Option (String × Wire) := x.label.map (·, x.wire)

/-- What a partial function finds in a list, it finds place by place. -/
theorem filterMap_range_getElem? {α β : Type} (f : α → Option β) (l : List α) :
    ((List.range l.length).filterMap fun i => l[i]?.bind f) = l.filterMap f := by
  induction l using List.reverseRecOn with
  | nil => rfl
  | append_singleton l x ih =>
    have hold : ∀ i ∈ List.range l.length, (l ++ [x])[i]?.bind f = l[i]?.bind f := by
      intro i hi
      rw [List.getElem?_append_left (List.mem_range.mp hi)]
    rw [List.length_append, List.length_singleton, List.range_succ, List.filterMap_append,
      List.filterMap_congr hold, ih, List.filterMap_append]
    simp [List.filterMap]

namespace Circuit

variable {c d : Circuit} {g : Gate} {id : Nat}

/-! ## Nodes -/

/-- The nodes of a new wire come after all others. -/
theorem contentAt?_addWire (c : Circuit) (kind : Wire.Kind) (label : Option String) (id : Nat) :
    (c.addWire kind label).1.contentAt? id =
      if id = c.nodes.size then some (.input (.ofKind kind c.wireCount))
      else if id = c.nodes.size + 1 then some (.output (.ofKind kind c.wireCount))
      else c.contentAt? id := by
  unfold contentAt? addWire wireCount
  simp only [Array.getElem?_push, Array.size_push]
  by_cases hinput : id = c.nodes.size
  · rw [if_pos hinput, if_neg (by omega), if_pos hinput]
    rfl
  · by_cases houtput : id = c.nodes.size + 1
    · rw [if_pos houtput, if_neg hinput, if_pos houtput]
      rfl
    · rw [if_neg hinput, if_neg houtput, if_neg houtput, if_neg hinput]

theorem contentAt?_addWire_of_some {kind : Wire.Kind} {label : Option String} {x : Node.Content}
    (h : c.contentAt? id = some x) : (c.addWire kind label).1.contentAt? id = some x := by
  have hlt := lt_size_of_contentAt? h
  rw [contentAt?_addWire, if_neg (by omega), if_neg (by omega), h]

theorem contentAt?_addWire_eq_gate_iff {kind : Wire.Kind} {label : Option String} :
    (c.addWire kind label).1.contentAt? id = some (.gate g) ↔ c.contentAt? id = some (.gate g) := by
  refine ⟨fun h => ?_, contentAt?_addWire_of_some⟩
  rw [contentAt?_addWire] at h
  split at h
  · cases h
  · split at h
    · cases h
    · exact h

theorem contentAt?_place (c : Circuit) (g : Gate) (id : Nat) :
    (c.place g).contentAt? id =
      if id = c.nodes.size then some (.gate g) else c.contentAt? id := by
  unfold contentAt?
  rw [place_nodes, Array.getElem?_push]
  split <;> rfl

theorem lt_size_of_isSome_gateAt? (h : (c.gateAt? id).isSome = true) : id < c.size := by
  obtain ⟨g, hg⟩ := Option.isSome_iff_exists.mp h
  exact lt_size_of_contentAt? (gateAt?_eq_some_iff.mp hg)

/-- Which nodes are gates depends on what they stand for. -/
theorem gateAt?_congr (h : d.contentAt? id = c.contentAt? id) : d.gateAt? id = c.gateAt? id := by
  apply Option.ext
  intro g
  rw [gateAt?_eq_some_iff, gateAt?_eq_some_iff, h]

theorem gateAt?_of_liveGateAt? (h : c.liveGateAt? id = some g) : c.gateAt? id = some g := by
  obtain ⟨n, hn, hlive⟩ := Option.bind_eq_some_iff.mp h
  unfold Node.liveGate? at hlive
  split at hlive
  · cases hlive
  · rw [gateAt?, hn]
    exact hlive

/-! ## Tags -/

/-- The second circuit differs from the first in tags only. -/
structure Retagged (c d : Circuit) : Prop where
  content_eq : ∀ id, d.contentAt? id = c.contentAt? id
  edges_eq : d.edges = c.edges
  tracks_eq : d.tracks = c.tracks
  gateOrder_eq : d.gateOrder = c.gateOrder
  labels_eq : d.labels = c.labels
  rewiring_eq : d.rewiring = c.rewiring
  qubitCount_eq : d.qubitCount = c.qubitCount

theorem Retagged.size_eq (h : Retagged c d) : d.size = c.size := by
  have hcontents : d.nodes.map (·.content) = c.nodes.map (·.content) := by
    apply Array.ext_getElem?
    intro id
    rw [Array.getElem?_map, Array.getElem?_map]
    exact h.content_eq id
  simpa [size] using congrArg Array.size hcontents

theorem Retagged.declarations_eq (h : Retagged c d) : d.declarations = c.declarations := by
  rw [declarations, h.tracks_eq, declarations]

/-- A node is replaced by one that stands for the same. -/
theorem retagged_replaceNode {n n' : Node} (hn : c.nodes[id]? = some n)
    (hsame : n'.content = n.content) : Retagged c (c.replaceNode id n') := by
  refine ⟨fun v => ?_, rfl, rfl, rfl, rfl, rfl, rfl⟩
  unfold contentAt? replaceNode
  rw [Array.getElem?_setIfInBounds]
  by_cases hv : id = v
  · subst hv
    have hlt := (Array.getElem?_eq_some_iff.mp hn).1
    rw [if_pos rfl, if_pos hlt, hn]
    exact congrArg some hsame
  · rw [if_neg hv]

theorem retag_of_node {n : Node} (hn : c.nodes[id]? = some n) (update : Node → Node)
    (previous : Node → Bool) :
    retag id update previous c = .ok (previous n) (c.replaceNode id (update n)) := by
  have hnode : c.node id = .ok n := by rw [node, hn]
  unfold retag
  rw [get_bind, lift_bind_ok hnode]
  rfl

/-- A tag is set or there is no such node; the circuit is the same but for tags. -/
theorem retagged_stateAfter_retag (c : Circuit) (id : Nat) (update : Node → Node)
    (hupdate : ∀ n, (update n).content = n.content) (previous : Node → Bool) :
    Retagged c (stateAfter (retag id update previous) c) := by
  unfold stateAfter
  cases hn : c.nodes[id]? with
  | some n =>
    rw [retag_of_node hn]
    exact retagged_replaceNode hn (hupdate n)
  | none =>
    have hrun : retag id update previous c = .error .unknownNode c := by
      have hnode : c.node id = .error .unknownNode := by rw [node, hn]
      unfold retag
      rw [get_bind, hnode]
      rfl
    rw [hrun]
    exact ⟨fun _ => rfl, rfl, rfl, rfl, rfl, rfl, rfl⟩

theorem retagged_setMarked (c : Circuit) (id : Nat) (value : Bool) :
    Retagged c (stateAfter (setMarked id value) c) :=
  retagged_stateAfter_retag c id ({ · with marked := value }) (fun _ => rfl) _

theorem retagged_setVisited (c : Circuit) (id : Nat) (value : Bool) :
    Retagged c (stateAfter (setVisited id value) c) :=
  retagged_stateAfter_retag c id ({ · with visited := value }) (fun _ => rfl) _

theorem retagged_clearVisited (c : Circuit) : Retagged c c.clearVisited := by
  refine ⟨fun id => ?_, rfl, rfl, rfl, rfl, rfl, rfl⟩
  unfold contentAt? clearVisited
  rw [Array.getElem?_map, Option.map_map]
  rfl

/-! ## Indexed circuits -/

/-- The order of the gates lists all gate nodes, the labels are those of the
declared wires, and the qubits are counted. -/
structure Indexed (c : Circuit) : Prop where
  gateOrder_eq : c.gateOrder.toList = (List.range c.size).filter fun id => (c.gateAt? id).isSome
  labels_eq : c.labels = (c.declarations.filterMap DeclaredWire.labelled?).reverse
  qubitCount_eq : c.qubitCount = c.declarations.countP (·.wire.isQubit)

theorem indexed_empty : Indexed empty := ⟨rfl, rfl, rfl⟩

namespace Indexed

theorem retagged (h : c.Indexed) (hd : Retagged c d) : d.Indexed where
  gateOrder_eq := by
    rw [hd.gateOrder_eq, h.gateOrder_eq, hd.size_eq]
    exact List.filter_congr fun id _ => by rw [gateAt?_congr (hd.content_eq id)]
  labels_eq := by rw [hd.labels_eq, h.labels_eq, hd.declarations_eq]
  qubitCount_eq := by rw [hd.qubitCount_eq, h.qubitCount_eq, hd.declarations_eq]

theorem rewired (h : c.Indexed) (map : List Nat) : Indexed { c with rewiring := map } :=
  ⟨h.gateOrder_eq, h.labels_eq, h.qubitCount_eq⟩

/-- The nodes of a new wire are no gates. -/
theorem addWire (h : c.Indexed) (kind : Wire.Kind) (label : Option String) :
    (c.addWire kind label).1.Indexed where
  gateOrder_eq := by
    have hsize : (c.addWire kind label).1.size = c.nodes.size + 2 := by
      simp [size, Circuit.addWire]
    have hsame : ∀ id, ((c.addWire kind label).1.gateAt? id).isSome = (c.gateAt? id).isSome := by
      intro id
      rw [Bool.eq_iff_iff]
      simp only [Option.isSome_iff_exists, gateAt?_eq_some_iff, contentAt?_addWire_eq_gate_iff]
    have hnone : ∀ id ≥ c.nodes.size, (c.gateAt? id).isSome = false := by
      intro id hid
      rw [gateAt?, Array.getElem?_eq_none hid]
      rfl
    simp only [hsame, hsize, List.range_succ, List.filter_append, List.filter_singleton]
    rw [hnone _ (Nat.le_refl _), hnone _ (Nat.le_succ _)]
    exact h.gateOrder_eq.trans (by simp [size])
  labels_eq := by
    rw [addWire_declarations, List.filterMap_append, List.reverse_append, ← h.labels_eq]
    cases label <;> rfl
  qubitCount_eq := by
    rw [addWire_declarations, List.countP_append, ← h.qubitCount_eq]
    cases kind <;> rfl

/-- A new gate is the last node. -/
theorem place (h : c.Indexed) (g : Gate) : (c.place g).Indexed where
  gateOrder_eq := by
    have hsize : (c.place g).size = c.nodes.size + 1 := by simp [size]
    have hnew : (c.place g).gateAt? c.nodes.size = some g := by
      rw [gateAt?_eq_some_iff, contentAt?_place, if_pos rfl]
    have hold : ∀ id ∈ List.range c.nodes.size,
        ((c.place g).gateAt? id).isSome = (c.gateAt? id).isSome := by
      intro id hid
      have hne : id ≠ c.nodes.size := Nat.ne_of_lt (List.mem_range.mp hid)
      rw [gateAt?_congr ((contentAt?_place c g id).trans (if_neg hne))]
    rw [place_gateOrder, Array.toList_push, h.gateOrder_eq, hsize, List.range_succ,
      List.filter_append, List.filter_congr hold]
    simp [hnew, size]
  labels_eq := by rw [place_labels, place_declarations, h.labels_eq]
  qubitCount_eq := by rw [place_qubitCount, place_declarations, h.qubitCount_eq]

/-! ## The order of the gates -/

theorem mem_gateOrder_iff (h : c.Indexed) : id ∈ c.gateOrder ↔ (c.gateAt? id).isSome = true := by
  rw [← Array.mem_toList_iff, h.gateOrder_eq, List.mem_filter, List.mem_range]
  exact and_iff_right_of_imp lt_size_of_isSome_gateAt?

theorem pairwise_gateOrder (h : c.Indexed) : c.gateOrder.toList.Pairwise (· < ·) := by
  rw [h.gateOrder_eq]
  exact List.pairwise_lt_range.filter _

/-- The gates that are not marked, read off the nodes. -/
theorem liveGates_eq (h : c.Indexed) : c.liveGates = c.nodes.toList.filterMap (·.liveGate?) := by
  have hgate : ∀ id ∈ List.range c.size,
      (if (c.gateAt? id).isSome then c.liveGateAt? id else none) = c.liveGateAt? id := by
    intro id _
    cases hlive : c.liveGateAt? id with
    | none => simp
    | some g => rw [gateAt?_of_liveGateAt? hlive]; rfl
  have hnodes := filterMap_range_getElem? (·.liveGate?) c.nodes.toList
  simp only [Array.length_toList, Array.getElem?_toList] at hnodes
  rw [liveGates, h.gateOrder_eq, List.filterMap_filter, List.filterMap_congr hgate, ← hnodes]
  rfl

end Indexed

/-- Only the gates are kept of numbers and gates. -/
theorem map_snd_gates (c : Circuit) : c.gates.map Prod.snd = c.liveGates := by
  rw [gates, List.map_filterMap]
  refine List.filterMap_congr fun id _ => ?_
  cases c.liveGateAt? id <;> rfl

/-- The gates that are not marked are listed in the order of all gates. -/
theorem Indexed.map_fst_gates (h : c.Indexed) :
    c.gates.map Prod.fst = c.gateOrder.toList.filter fun id => !c.isMarked id := by
  rw [gates, List.map_filterMap, ← List.filterMap_eq_filter]
  refine List.filterMap_congr fun id hid => ?_
  obtain ⟨g, hg⟩ := Option.isSome_iff_exists.mp
    (h.mem_gateOrder_iff.mp (Array.mem_toList_iff.mp hid))
  obtain ⟨n, hn, hgate⟩ := Option.bind_eq_some_iff.mp hg
  cases hmarked : n.marked <;>
    simp [liveGateAt?, isMarked, hn, Node.liveGate?, hmarked, hgate, Option.guard]

end Circuit

end CircuitSynthesis
