import CircuitSynthesis.Proofs.History
import Mathlib.Data.List.Sort

/-!
# Steps along a wire

A step from a node to the next one on a wire is looked up among the edges,
while the wire itself lists its nodes in order. No node stands twice on a
wire, so at most one edge of the wire leaves a node and at most one enters it.
The look-up therefore finds exactly the neighbours in the list, also where
several wires join the same two gates. Between gates every edge leads from the
older one to the younger one (`navigation_follows_paths`).
-/

namespace CircuitSynthesis

/-- Where all matches have the same image, a search finds the image of any. -/
theorem map_find?_eq_some_iff {α β : Type} {l : List α} {p : α → Bool} {f : α → β} {b : β}
    (hagree : ∀ x ∈ l, p x = true → ∀ y ∈ l, p y = true → f x = f y) :
    (l.find? p).map f = some b ↔ ∃ x ∈ l, p x = true ∧ f x = b := by
  rw [Option.map_eq_some_iff]
  constructor
  · rintro ⟨x, hfind, hx⟩
    exact ⟨x, List.mem_of_find?_eq_some hfind, List.find?_some hfind, hx⟩
  · rintro ⟨x, hx, hp, rfl⟩
    obtain ⟨y, hfind⟩ := Option.isSome_iff_exists.mp (List.find?_isSome.mpr ⟨x, hx, hp⟩)
    exact ⟨y, hfind,
      hagree y (List.mem_of_find?_eq_some hfind) (List.find?_some hfind) x hx hp⟩

namespace Circuit

variable {c : Circuit} {a b : Nat} {w : Wire} {t : Track} {i : Nat} {e : Edge}

/-! ## Neighbours in a list -/

theorem consecutive_right_unique {l : List Nat} (hl : l.Nodup) {b' : Nat}
    (h : (a, b) ∈ consecutive l) (h' : (a, b') ∈ consecutive l) : b = b' := by
  obtain ⟨i, ha, hb⟩ := mem_consecutive_iff.mp h
  obtain ⟨j, ha', hb'⟩ := mem_consecutive_iff.mp h'
  obtain ⟨hi, -⟩ := List.getElem?_eq_some_iff.mp ha
  obtain rfl : i = j := (List.getElem?_inj hi hl).mp (ha.trans ha'.symm)
  exact Option.some.inj (hb.symm.trans hb')

theorem consecutive_left_unique {l : List Nat} (hl : l.Nodup) {a' : Nat}
    (h : (a, b) ∈ consecutive l) (h' : (a', b) ∈ consecutive l) : a = a' := by
  obtain ⟨i, ha, hb⟩ := mem_consecutive_iff.mp h
  obtain ⟨j, ha', hb'⟩ := mem_consecutive_iff.mp h'
  obtain ⟨hi, -⟩ := List.getElem?_eq_some_iff.mp hb
  have hij : i + 1 = j + 1 := (List.getElem?_inj hi hl).mp (hb.trans hb'.symm)
  obtain rfl : i = j := Nat.succ.inj hij
  exact Option.some.inj (ha.symm.trans ha')

/-! ## The nodes and edges of a wire -/

theorem Threads.output_notMem_front (h : c.Threads i t) : t.output ∉ t.front := by
  intro hmem
  have houtput := h.output_content
  rcases List.mem_cons.mp hmem with hinput | hgate
  · rw [hinput, h.input_content] at houtput
    cases houtput
  · obtain ⟨g, hg⟩ := h.gate_content _ hgate
    rw [hg] at houtput
    cases houtput

/-- No node stands twice on a wire. -/
theorem Sound.nodup_path (h : c.Sound) (ht : c.tracks[i]? = some t) : t.path.Nodup := by
  have hfront : t.front.Nodup := (h.ascending i t ht).imp Nat.ne_of_lt
  rw [Track.path_eq, List.nodup_append]
  refine ⟨hfront, List.nodup_singleton _, fun v hv u hu heq => ?_⟩
  rw [List.mem_singleton.mp hu] at heq
  exact (h.threads i t ht).output_notMem_front (heq ▸ hv)

/-- The edges of a wire are its segments. -/
theorem Threaded.mem_segments_iff (h : c.Threaded) (ht : c.track? w = some t) :
    e ∈ t.segments ↔ e ∈ c.edges ∧ e.wire.sameWire w = true := by
  obtain ⟨hget, -⟩ := Option.filter_eq_some_iff.mp ht
  have hwire := h.wire_eq_positive (by rw [ht]; rfl) hget
  constructor
  · intro hsegment
    have htrack : t ∈ c.tracks.toList := Array.mem_toList_iff.mpr (Array.mem_of_getElem? hget)
    refine ⟨h.edges_perm.mem_iff.mpr (List.mem_flatMap.mpr ⟨t, htrack, hsegment⟩), ?_⟩
    rw [Track.wire_of_mem_segments hsegment, hwire]
    exact Wire.sameWire_iff.mpr ⟨rfl, rfl⟩
  · rintro ⟨he, hsame⟩
    obtain ⟨j, t', ht', hsegment⟩ := h.exists_track_of_mem_edges he
    -- Two tracks of one index are one.
    have hindex : j = w.index := by
      rw [← (h.threads j t' ht').index_eq, ← Track.wire_of_mem_segments hsegment]
      exact (Wire.sameWire_iff.mp hsame).1
    rw [hindex, hget] at ht'
    cases ht'
    exact hsegment

/-- What a search among the edges of a wire finds, it finds on its segments. -/
theorem Threaded.map_find?_edges_iff (h : c.Threaded) (ht : c.track? w = some t) {p : Edge → Bool}
    {f : Edge → Nat} (hagree : ∀ e ∈ t.segments, p e = true → ∀ e' ∈ t.segments, p e' = true →
      f e = f e') :
    (c.edges.find? fun e => p e && e.wire.sameWire w).map f = some b ↔
      ∃ e ∈ t.segments, p e = true ∧ f e = b := by
  have hmatch (e : Edge) : (e ∈ c.edges ∧ (p e && e.wire.sameWire w) = true) ↔
      e ∈ t.segments ∧ p e = true := by
    rw [h.mem_segments_iff ht, Bool.and_eq_true]
    tauto
  rw [map_find?_eq_some_iff]
  · simp only [← and_assoc, hmatch]
  · intro e he hp e' he' hp'
    obtain ⟨hsegment, hp⟩ := (hmatch e).mp ⟨he, hp⟩
    obtain ⟨hsegment', hp'⟩ := (hmatch e').mp ⟨he', hp'⟩
    exact hagree e hsegment hp e' hsegment' hp'

/-! ## Looking up neighbours -/

theorem exists_segment_iff :
    (∃ e ∈ t.segments, e.source = a ∧ e.target = b) ↔ (a, b) ∈ consecutive t.path := by
  simp [Track.segments]

/-- The node after another one on a wire is the next one in its list. -/
theorem Sound.successor?_eq_some_iff (h : c.Sound) (ht : c.track? w = some t) :
    c.successor? a w = some b ↔ (a, b) ∈ consecutive t.path := by
  have hnodup := h.nodup_path (Option.filter_eq_some_iff.mp ht).1
  rw [successor?, h.map_find?_edges_iff ht, ← exists_segment_iff]
  · simp only [beq_iff_eq]
  · intro e he ha e' he' ha'
    exact consecutive_right_unique hnodup (exists_segment_iff.mp ⟨e, he, beq_iff_eq.mp ha, rfl⟩)
      (exists_segment_iff.mp ⟨e', he', beq_iff_eq.mp ha', rfl⟩)

/-- The node before another one on a wire is the previous one in its list. -/
theorem Sound.predecessor?_eq_some_iff (h : c.Sound) (ht : c.track? w = some t) :
    c.predecessor? b w = some a ↔ (a, b) ∈ consecutive t.path := by
  have hnodup := h.nodup_path (Option.filter_eq_some_iff.mp ht).1
  rw [predecessor?, h.map_find?_edges_iff ht, ← exists_segment_iff]
  · simp only [beq_iff_eq, and_comm]
  · intro e he hb e' he' hb'
    exact consecutive_left_unique hnodup (exists_segment_iff.mp ⟨e, he, rfl, beq_iff_eq.mp hb⟩)
      (exists_segment_iff.mp ⟨e', he', rfl, beq_iff_eq.mp hb'⟩)

/-! ## The order of the gates -/

/-- An edge between gates leads from the older one to the younger one. -/
theorem Sound.lt_of_mem_edges (h : c.Sound) (he : e ∈ c.edges)
    (htarget : (c.gateAt? e.target).isSome = true) : e.source < e.target := by
  obtain ⟨i, t, ht, hsegment⟩ := h.exists_track_of_mem_edges he
  rcases Track.ends_of_mem_segments hsegment with ⟨hpair, -⟩ | ⟨-, houtput⟩
  · exact of_mem_consecutive (h.ascending i t ht) hpair
  · -- The output of a wire is not a gate.
    obtain ⟨g, hg⟩ := Option.isSome_iff_exists.mp htarget
    have hcontent := (h.threads i t ht).output_content
    rw [← houtput, gateAt?_eq_some_iff.mp hg] at hcontent
    cases hcontent

/-- Of two gates, the one with the lower number comes first. -/
theorem Indexed.sublist_gateOrder (h : c.Indexed) (ha : (c.gateAt? a).isSome = true)
    (hb : (c.gateAt? b).isSome = true) (hab : a < b) : [a, b].Sublist c.gateOrder.toList := by
  have hsub : [a, b] ⊆ c.gateOrder.toList := by
    simpa using ⟨h.mem_gateOrder_iff.mpr ha, h.mem_gateOrder_iff.mpr hb⟩
  refine List.sublist_of_subperm_of_pairwise (r := (· < ·))
    (List.subperm_of_subset (by simpa using hab.ne) hsub) (by simpa using hab) ?_
  exact h.pairwise_gateOrder

/-- **Navigation.** On every wire of a reachable circuit, in any polarity, one
node comes after another exactly when the two follow one another in the list
of its nodes, where no node stands twice. An edge between two gates leads to
the gate that was appended later. The order of the gates lists all gate nodes;
an appended gate comes last in it, and those that are not marked are listed in
it. -/
theorem navigation_follows_paths (hc : c.Reachable) :
    (∀ w t, c.track? w = some t → t.path.Nodup ∧ ∀ a b,
      (c.successor? a w = some b ↔ (a, b) ∈ consecutive t.path) ∧
      (c.predecessor? b w = some a ↔ (a, b) ∈ consecutive t.path)) ∧
    (∀ e ∈ c.edges, (c.gateAt? e.source).isSome = true → (c.gateAt? e.target).isSome = true →
      [e.source, e.target].Sublist c.gateOrder.toList) ∧
    c.gateOrder.toList = (List.range c.size).filter (fun id => (c.gateAt? id).isSome) ∧
    (∀ g, (c.place g).gateOrder.toList = c.gateOrder.toList ++ [c.nodes.size]) ∧
    c.gates.map Prod.fst = c.gateOrder.toList.filter fun id => !c.isMarked id := by
  have hsound := hc.sound
  refine ⟨?_, ?_, hsound.gateOrder_eq, ?_, hsound.map_fst_gates⟩
  · intro w t ht
    refine ⟨hsound.nodup_path (Option.filter_eq_some_iff.mp ht).1, fun a b => ?_⟩
    exact ⟨hsound.successor?_eq_some_iff ht, hsound.predecessor?_eq_some_iff ht⟩
  · intro e he hsource htarget
    exact hsound.sublist_gateOrder hsource htarget (hsound.lt_of_mem_edges he htarget)
  · intro g
    rw [place_gateOrder, Array.toList_push]

/-- Two gates that are joined by two wires, the first of them marked; a
classical bit was declared between them, and a measurement writes to it. -/
def joinedTwice : Circuit := ofHistory [.addWire .qubit, .addWire .qubit,
  .append (.mcx [(Wire.qubit 0).complement] [.qubit 1]), .addNamedWire .cbit "result",
  .append (.cx (.qubit 1) (.qubit 0)), .append ⟨.measure, [], [.qubit 0, .cbit 2]⟩,
  .setMarked 4 true]

theorem navigation_follows_paths_joinedTwice :
    joinedTwice.Reachable ∧
      (∃ t, joinedTwice.track? (Wire.qubit 0).complement = some t ∧ t.path = [0, 4, 7, 8, 1]) ∧
      joinedTwice.successor? 4 (Wire.qubit 0).complement = some 7 ∧
      joinedTwice.predecessor? 7 (.qubit 1) = some 4 ∧
      [4, 7].Sublist joinedTwice.gateOrder.toList := by
  have hc : joinedTwice.Reachable := ⟨_, rfl⟩
  obtain ⟨hwires, hgates, -, -⟩ := navigation_follows_paths hc
  obtain ⟨-, hfirst⟩ := hwires (Wire.qubit 0).complement
    ⟨⟨.qubit 0, none⟩, 0, #[4, 7, 8], 1⟩ rfl
  obtain ⟨-, hsecond⟩ := hwires (.qubit 1) ⟨⟨.qubit 1, none⟩, 2, #[4, 7], 3⟩ rfl
  refine ⟨hc, ⟨_, rfl, rfl⟩, (hfirst 4 7).1.mpr (by decide), (hsecond 4 7).2.mpr (by decide), ?_⟩
  exact hgates ⟨4, 7, .qubit 0⟩ (by decide) rfl rfl

end Circuit

end CircuitSynthesis
