import CircuitSynthesis.Proofs.Circuit.Compaction
import Mathlib.Algebra.BigOperators.Fin

/-!
# The books of a circuit

A circuit keeps several accounts of the same facts: nodes and the order of the
gates, the nodes on the wires and the operands of the gates, the wires with
their labels, number and permutation. Each is written on its own, so that one of
them could lag behind. They stay in step through every history
(`balanced_ofHistory`), because a request declares one wire or none
(`Booked.perform`) and everything else that it adds are gates. Which wires a
history declares can be told without the circuit (`Request.register`).
-/

namespace CircuitSynthesis

/-! ## The register of wires -/

/-- The wires after a request: a new wire has the next index, a label that is
taken is refused, and no other request declares a wire. -/
def Request.register (declared : List DeclaredWire) : Request → List DeclaredWire
  | .addWire kind => declared ++ [⟨.ofKind kind declared.length, none⟩]
  | .addNamedWire kind label =>
    if some label ∈ declared.map (·.label) then declared
    else declared ++ [⟨.ofKind kind declared.length, some label⟩]
  | _ => declared

namespace Circuit

variable {c d : Circuit} {declared : List DeclaredWire} {label : String} {w : Wire}

/-! ## Counting nodes -/

/-- An input and an output for each wire, and the gates, are all the nodes. -/
def Counted (c : Circuit) : Prop := c.size = 2 * c.wireCount + c.gateCount

theorem gateCount_addWire (c : Circuit) (kind : Wire.Kind) (label : Option String) :
    (c.addWire kind label).1.gateCount = c.gateCount := rfl

@[simp] theorem ofQubits_gateCount (n : Nat) : (ofQubits n).gateCount = 0 := by
  induction n with
  | zero => rfl
  | succ n ih => rw [ofQubits, gateCount_addWire, ih]

theorem Counted.place (h : c.Counted) (g : Gate) : (c.place g).Counted := by
  have hsize : (c.place g).size = c.size + 1 := by simp [size]
  have hwires : (c.place g).wireCount = c.wireCount := foldl_place_wireCount [g] c
  have hgates : (c.place g).gateCount = c.gateCount + 1 := foldl_place_gateCount [g] c
  unfold Counted at h ⊢
  rw [hsize, hwires, hgates]
  omega

theorem Counted.addWire (h : c.Counted) (kind : Wire.Kind) (label : Option String) :
    (c.addWire kind label).1.Counted := by
  have hsize : (c.addWire kind label).1.size = c.size + 2 := by simp [size, Circuit.addWire]
  have hwires : (c.addWire kind label).1.wireCount = c.wireCount + 1 := Array.size_push _
  unfold Counted at h ⊢
  rw [hsize, hwires, gateCount_addWire]
  omega

/-- Whatever is left out, the rest is counted anew. -/
theorem counted_compact (c : Circuit) : c.compact.Counted := by
  have hwires := List.foldlRecOn c.tracks.toList
    (fun d t => (d.addWire t.declared.wire.kind t.declared.label).1) (show Counted empty from rfl)
    fun d hd t _ => hd.addWire t.declared.wire.kind t.declared.label
  exact List.foldlRecOn c.liveGates Circuit.place hwires fun d hd g _ => hd.place g

/-- Tags do not count. -/
theorem Retagged.counted (hd : Retagged c d) (h : c.Counted) : d.Counted := by
  show d.size = 2 * d.tracks.size + d.gateOrder.size
  rw [hd.size_eq, hd.tracks_eq, hd.gateOrder_eq]
  exact h

/-! ## What a request does to the books -/

/-- These are the wires of the circuit, no two under one label, and the nodes
are counted. -/
structure Booked (declared : List DeclaredWire) (c : Circuit) : Prop where
  declarations_eq : c.declarations = declared
  labels_nodup : (declared.filterMap (·.label)).Nodup
  counted : c.Counted

theorem booked_empty : Booked [] empty := ⟨rfl, List.nodup_nil, rfl⟩

theorem Booked.place (h : Booked declared c) (g : Gate) : Booked declared (c.place g) :=
  ⟨(place_declarations c g).trans h.declarations_eq, h.labels_nodup, h.counted.place g⟩

theorem Booked.retagged (h : Booked declared c) (hd : Retagged c d) : Booked declared d :=
  ⟨hd.declarations_eq.trans h.declarations_eq, h.labels_nodup, hd.counted h.counted⟩

/-- An engine declares no wires. -/
theorem stable_booked (declared : List DeclaredWire) : Edit.Stable (Booked declared) :=
  ⟨fun _ g h _ => h.place g, fun _ _ h _ => ⟨h.declarations_eq, h.labels_nodup, h.counted⟩⟩

theorem Booked.wireCount_eq (h : Booked declared c) : c.wireCount = declared.length := by
  rw [wireCount_eq_length_declarations, h.declarations_eq]

theorem map_fst_labelled? (declared : List DeclaredWire) :
    (declared.filterMap DeclaredWire.labelled?).map Prod.fst = declared.filterMap (·.label) := by
  rw [List.map_filterMap]
  refine List.filterMap_congr fun x _ => ?_
  cases hlabel : x.label <;> simp [DeclaredWire.labelled?, hlabel]

/-- A label is free exactly when no wire was declared under it. -/
theorem Booked.wireByLabel?_eq_none_iff (h : Booked declared c) (hc : c.Indexed) (label : String) :
    c.wireByLabel? label = none ↔ some label ∉ declared.map (·.label) := by
  have hkeys : (∀ p ∈ c.labels, (label != p.1) = true) ↔ label ∉ c.labels.map Prod.fst := by
    simp only [bne_iff_ne, List.mem_map, not_exists, not_and]
    exact forall₂_congr fun p _ => ne_comm
  rw [wireByLabel?, List.lookup_eq_none_iff, hkeys, hc.labels_eq, List.map_reverse,
    List.mem_reverse, map_fst_labelled?, h.declarations_eq]
  simp

/-- A wire under a free label, or under none, is entered at the end. -/
theorem Booked.addWire (h : Booked declared c) (kind : Wire.Kind) {label : Option String}
    (hfree : ∀ l ∈ label, some l ∉ declared.map (·.label)) :
    Booked (declared ++ [⟨.ofKind kind declared.length, label⟩]) (c.addWire kind label).1 := by
  refine ⟨?_, ?_, h.counted.addWire kind label⟩
  · rw [addWire_declarations, h.declarations_eq, h.wireCount_eq]
  · rw [List.filterMap_append]
    cases label with
    | none => simpa using h.labels_nodup
    | some l =>
      have hnew : l ∉ declared.filterMap (·.label) := by simpa using hfree l rfl
      rw [show [(⟨.ofKind kind declared.length, some l⟩ : DeclaredWire)].filterMap (·.label) = [l]
        from rfl, List.nodup_append]
      refine ⟨h.labels_nodup, List.nodup_singleton l, fun a ha b hb heq => hnew ?_⟩
      rw [← List.mem_singleton.mp hb, ← heq]
      exact ha

/-- **One request.** It declares one wire or none, and the books stay in step. -/
theorem Booked.perform (h : Booked declared c) (hc : c.Sound) (request : Request) :
    Booked (request.register declared) (request.perform c) := by
  have hstable := stable_booked declared
  cases request with
  | addWire kind => exact h.addWire kind nofun
  | addNamedWire kind label =>
    have hfree_iff := h.wireByLabel?_eq_none_iff hc.toIndexed label
    rw [Request.register]
    split
    · next htaken =>
      exact (guarded_addNamedWire c kind label).of_stateAfter h
        fun hfree => absurd htaken (hfree_iff.mp hfree)
    · next hfree =>
      rw [Request.perform, stateAfter,
        (guarded_addNamedWire c kind label).eq_ok (hfree_iff.mpr hfree)]
      exact h.addWire kind fun l hl => Option.some.inj hl ▸ hfree
  | addGate operation controls targets =>
    exact (guarded_addGate c operation controls targets).of_stateAfter h fun _ => h.place _
  | append g => exact (guarded_append c g).of_stateAfter h fun _ => h.place g
  | setMarked id value => exact h.retagged (retagged_setMarked c id value)
  | setVisited id value => exact h.retagged (retagged_setVisited c id value)
  | clearVisited => exact h.retagged (retagged_clearVisited c)
  | rewire map => exact (guarded_rewire c map).of_stateAfter h (hstable.rewired c map h)
  | compact =>
    have hdecl := (compact_declarations hc.toThreaded).trans h.declarations_eq
    exact ⟨hdecl, h.labels_nodup, counted_compact c⟩
  | cascade p f direction =>
    exact Cascade.keeps hstable p f.width direction ⟨c, f.table⟩ h
  | cnot p m o => exact Cnot.keeps hstable p m o c h
  | parityNetwork p terms o => exact ParityNetwork.keeps hstable p terms o c h
  | staircase p terms order => exact Staircase.keeps hstable p terms order c h

/-- **Whole histories.** The wires of the circuit are those of the register. -/
theorem Booked.foldl_perform (h : Booked declared c) (hc : c.Sound) (requests : List Request) :
    Booked (requests.foldl Request.register declared) (requests.foldl Request.perform c) := by
  induction requests generalizing declared c with
  | nil => exact h
  | cons request rest ih => exact ih (h.perform hc request) (Request.sound_perform hc request)

theorem booked_ofHistory (requests : List Request) :
    Booked (requests.foldl Request.register []) (ofHistory requests) :=
  booked_empty.foldl_perform sound_empty requests

/-! ## Nodes on wires and operands of gates -/

theorem sum_filterMap_gate? (nodes : List Node) :
    ((nodes.filterMap Node.gate?).map fun g => g.operands.length).sum =
      (nodes.map fun n => (n.gate?.map fun g => g.operands.length).getD 0).sum := by
  induction nodes with
  | nil => rfl
  | cons n nodes ih => cases hn : n.gate? <;> simp [hn, ih]

/-- A node appears on the wires as often as its gate has operands, and not at
all if it is an input or an output. -/
theorem Sound.count_appearances_eq (h : c.Sound) {id : Nat} {n : Node}
    (hn : c.nodes[id]? = some n) :
    c.appearances.count id = (n.gate?.map fun g => g.operands.length).getD 0 := by
  have hgate : c.gateAt? id = n.gate? := by simp [gateAt?, hn]
  cases hcase : n.gate? with
  | some g => exact h.count_appearances (gateAt?_eq_some_iff.mp (hgate.trans hcase))
  | none =>
    refine List.count_eq_zero_of_not_mem fun hmem => ?_
    obtain ⟨t, ht, hid⟩ := List.mem_flatMap.mp hmem
    obtain ⟨i, hi⟩ := Array.mem_iff_getElem?.mp (Array.mem_toList_iff.mp ht)
    obtain ⟨g, hg, -⟩ := h.actsOn hi hid
    rw [hgate, hcase] at hg
    cases hg

theorem Sound.lt_size_of_mem_appearances (h : c.Sound) {id : Nat} (hid : id ∈ c.appearances) :
    id < c.size := by
  obtain ⟨t, ht, hid⟩ := List.mem_flatMap.mp hid
  obtain ⟨i, hi⟩ := Array.mem_iff_getElem?.mp (Array.mem_toList_iff.mp ht)
  obtain ⟨g, hg⟩ := (h.threads i t hi).gate_content id hid
  exact lt_size_of_contentAt? hg

/-- Between their inputs and outputs the wires have one place for each operand
of each gate, marked or not. -/
theorem Sound.sum_places (h : c.Sound) :
    (c.tracks.toList.map fun t => t.path.length - 2).sum =
      ((c.nodes.toList.filterMap Node.gate?).map fun g => g.operands.length).sum := by
  have hlength : c.nodes.toList.length = c.size := Array.length_toList
  calc (c.tracks.toList.map fun t => t.path.length - 2).sum
      = c.appearances.length := by simp [appearances, List.length_flatMap, Track.path]
    _ = ∑ id ∈ Finset.range c.size, c.appearances.count id := by
        have hrange : ∀ id ∈ (c.appearances : Multiset Nat), id ∈ Finset.range c.size :=
          fun id hid => Finset.mem_range.mpr (h.lt_size_of_mem_appearances hid)
        simpa using (Multiset.sum_count_eq_card hrange).symm
    _ = ∑ i : Fin c.nodes.toList.length,
          (c.nodes.toList[i.1].gate?.map fun g => g.operands.length).getD 0 := by
        rw [← hlength, Finset.sum_range]
        refine Finset.sum_congr rfl fun i _ => h.count_appearances_eq ?_
        rw [← Array.getElem?_toList, List.getElem?_eq_getElem i.isLt]
    _ = _ := by rw [Fin.sum_univ_fun_getElem c.nodes.toList
          fun n => (n.gate?.map fun g => g.operands.length).getD 0, ← sum_filterMap_gate?]

/-! ## Wires, labels and the wire permutation -/

theorem Threaded.index_of_wires (h : c.Threaded) {i : Nat} (hw : c.wires[i]? = some w) :
    w.index = i := by
  rw [wires, List.getElem?_map, Array.getElem?_toList] at hw
  obtain ⟨t, ht, rfl⟩ := Option.map_eq_some_iff.mp hw
  exact (h.threads i t ht).index_eq

/-- Where no label is used twice, declarations under one label are one. -/
theorem Booked.eq_of_label_eq (h : Booked declared c) {x y : DeclaredWire}
    (hx : x ∈ c.declarations) (hy : y ∈ c.declarations) (hxl : x.label = some label)
    (hyl : y.label = some label) : x = y := by
  rw [h.declarations_eq] at hx hy
  have hpair := List.pairwise_filterMap.mp h.labels_nodup
  have : Std.Symm fun a b : DeclaredWire => ∀ l, a.label = some l → ∀ l', b.label = some l' →
      l ≠ l' := ⟨fun _ _ hab l hl l' hl' => (hab l' hl' l hl).symm⟩
  by_contra hne
  exact hpair.forall hx hy hne label hxl label hyl rfl

/-- Where no key occurs twice, a search by key finds the entries of the list. -/
theorem lookup_eq_some_iff_mem {l : List (String × Wire)} (h : (l.map Prod.fst).Nodup) :
    l.lookup label = some w ↔ (label, w) ∈ l := by
  constructor
  · intro hlookup
    obtain ⟨l₁, l₂, rfl, -⟩ := List.lookup_eq_some_iff.mp hlookup
    simp
  · intro hmem
    cases hlookup : l.lookup label with
    | none => simpa using List.lookup_eq_none_iff.mp hlookup _ hmem
    | some v =>
      obtain ⟨l₁, l₂, hl, -⟩ := List.lookup_eq_some_iff.mp hlookup
      have hmem' : (label, v) ∈ l := by simp [hl]
      have heq := List.inj_on_of_nodup_map h hmem' hmem rfl
      rw [(Prod.mk.inj heq).2]

/-- A label leads to the one wire declared under it. -/
theorem Booked.wireByLabel?_eq_some_iff (h : Booked declared c) (hc : c.Indexed) :
    c.wireByLabel? label = some w ↔ ⟨w, some label⟩ ∈ c.declarations ∧
      ∀ x ∈ c.declarations, x.label = some label → x.wire = w := by
  have hnodup : (c.labels.map Prod.fst).Nodup := by
    rw [hc.labels_eq, List.map_reverse, map_fst_labelled?, List.nodup_reverse, h.declarations_eq]
    exact h.labels_nodup
  have hentry : ∀ x : DeclaredWire, x.labelled? = some (label, w) ↔ x = ⟨w, some label⟩ := by
    rintro ⟨wire, _ | l⟩ <;> simp [DeclaredWire.labelled?, and_comm]
  rw [wireByLabel?, lookup_eq_some_iff_mem hnodup, hc.labels_eq, List.mem_reverse,
    List.mem_filterMap]
  simp only [hentry, exists_eq_right]
  refine (and_iff_left_of_imp fun hmem x hx hlabel => ?_).symm
  rw [h.eq_of_label_eq hx hmem hlabel rfl]

/-! ## All books -/

/-- The accounts of a circuit agree with one another. -/
structure Balanced (c : Circuit) : Prop where
  /-- The nodes are an input and an output for each wire, and the gates that the
  order of the gates has. -/
  size_eq : c.size = 2 * c.wireCount + c.gateCount
  /-- The order of the gates lists the gate nodes, each once. -/
  gateOrder_eq : c.gateOrder.toList = (List.range c.size).filter fun id => (c.gateAt? id).isSome
  /-- Between input and output, the wires have a place for each operand of
  each gate, marked or not. -/
  places_eq : (c.tracks.toList.map fun t => t.path.length - 2).sum =
    ((c.nodes.toList.filterMap Node.gate?).map fun g => g.operands.length).sum
  qubitCount_eq : c.qubitCount = c.wires.countP (·.isQubit)
  cbitCount_eq : c.qubitCount + c.cbitCount = c.wireCount
  index_eq : ∀ (i : Nat) (w : Wire), c.wires[i]? = some w → w.index = i
  rewiring_perm : c.rewiring.Perm (List.range c.wireCount)
  labels_nodup : (c.declarations.filterMap (·.label)).Nodup
  /-- A label leads to the one wire that was declared under it. -/
  wireByLabel?_iff : ∀ label w, c.wireByLabel? label = some w ↔
    ⟨w, some label⟩ ∈ c.declarations ∧ ∀ x ∈ c.declarations, x.label = some label → x.wire = w

/-- **Bookkeeping.** Whatever was asked of a circuit, granted or refused, its
accounts agree. Its wires are those of the register, in order, and it has as
many qubits as the register. -/
theorem balanced_ofHistory (requests : List Request) :
    (ofHistory requests).Balanced ∧
      (ofHistory requests).declarations = requests.foldl Request.register [] ∧
      (ofHistory requests).qubitCount =
        (requests.foldl Request.register []).countP (·.wire.isQubit) := by
  have hsound : (ofHistory requests).Sound := Reachable.sound ⟨requests, rfl⟩
  have hbooked := booked_ofHistory requests
  have hdecl := hbooked.declarations_eq
  have hqubits := hsound.qubitCount_eq
  refine ⟨⟨hbooked.counted, hsound.gateOrder_eq, hsound.sum_places, ?_, ?_,
    fun i w => hsound.index_of_wires, perm_range_of_isRangePermutation hsound.rewiring_perm,
    hdecl ▸ hbooked.labels_nodup,
    fun label w => hbooked.wireByLabel?_eq_some_iff hsound.toIndexed⟩, hdecl, hdecl ▸ hqubits⟩
  · rw [hqubits, wires_eq_map_declarations, List.countP_map]
    rfl
  · have hle : (ofHistory requests).qubitCount ≤ (ofHistory requests).wireCount := by
      rw [hqubits, wireCount_eq_length_declarations]
      exact List.countP_le_length
    exact Nat.add_sub_cancel' hle

/-- A number of qubits that was not brought up to date would show. -/
example : ¬Balanced { ofQubits 1 with qubitCount := 0 } := fun h =>
  absurd h.qubitCount_eq (by decide)

end Circuit

end CircuitSynthesis
