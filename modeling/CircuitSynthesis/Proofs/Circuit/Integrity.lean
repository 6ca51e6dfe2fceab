import CircuitSynthesis.Proofs.Circuit.Acyclicity
import CircuitSynthesis.Proofs.Circuit.Sound

/-!
# Sound circuits pass the integrity check

What the check looks for is said here without it (`Intact`): no cycle, wires
that run from input to output, an edge for each two nodes that follow one
another and no more, and an order of the gates that lists gates only, each once
on each of its wires. A sound circuit has all that (`Sound.intact`), and the
check accepts it (`Sound.integrity_eq_ok`).
-/

namespace CircuitSynthesis.Circuit

variable {c : Circuit} {g : Gate} {t : Track} {i : Nat}

/-- The structure of the circuit is as it should be. -/
structure Intact (c : Circuit) : Prop where
  acyclic : Graph.Acyclic c.edges
  /-- Every wire starts at an input of its own. -/
  starts : ∀ t ∈ c.tracks, c.contentAt? t.input = some (.input t.declared.wire)
  /-- Every wire ends at an output of its own. -/
  finishes : ∀ t ∈ c.tracks, c.contentAt? t.output = some (.output t.declared.wire)
  /-- All nodes between them are gates that act on the wire. -/
  acts : ∀ t ∈ c.tracks, ∀ id ∈ t.gates,
    ∃ g, c.gateAt? id = some g ∧ g.touches t.declared.wire = true
  /-- Nodes that follow one another on a wire are joined by an edge of it. -/
  joined : ∀ t ∈ c.tracks, ∀ a b, (a, b) ∈ consecutive t.path →
    ⟨a, b, t.declared.wire⟩ ∈ c.edges
  /-- There are no other edges. -/
  edge_count : c.edges.length = c.expectedEdges
  /-- The order of the gates lists gates only. -/
  ordered : ∀ id ∈ c.gateOrder, (c.gateAt? id).isSome = true
  /-- A gate stands once on each wire it acts on. -/
  complete : ∀ id g, c.gateAt? id = some g → ∀ w ∈ g.operands,
    ∃ t, c.track? w = some t ∧ t.gates.toList.count id = 1

/-! ## No cycle -/

/-- The number of a node, save that outputs come after everything else. A wire
can be declared between two gates, so that the number of its output alone is
below those of gates on it. -/
def rank (c : Circuit) (id : Nat) : Nat :=
  match c.contentAt? id with
  | some (.output _) => c.nodes.size
  | _ => id

theorem Threads.rank_output (h : c.Threads i t) : c.rank t.output = c.nodes.size := by
  rw [rank, h.output_content]

theorem Threads.rank_of_mem_gates (h : c.Threads i t) {id : Nat} (hid : id ∈ t.gates.toList) :
    c.rank id = id := by
  obtain ⟨g, hg⟩ := h.gate_content id hid
  rw [rank, hg]

theorem Threads.rank_of_mem_front (h : c.Threads i t) {id : Nat} (hid : id ∈ t.front) :
    c.rank id = id := by
  rcases List.mem_cons.mp hid with rfl | hid
  · rw [rank, h.input_content]
  · exact h.rank_of_mem_gates hid

theorem Threaded.exists_track_of_mem_edges (h : c.Threaded) {e : Edge} (he : e ∈ c.edges) :
    ∃ (i : Nat) (t : Track), c.tracks[i]? = some t ∧ e ∈ t.segments := by
  obtain ⟨t, ht, hsegment⟩ := List.mem_flatMap.mp (h.edges_perm.mem_iff.mp he)
  obtain ⟨i, hi⟩ := Array.mem_iff_getElem?.mp (Array.mem_toList_iff.mp ht)
  exact ⟨i, t, hi, hsegment⟩

theorem Sound.isRank (h : c.Sound) : Graph.IsRank c.edges c.rank := by
  intro e he
  obtain ⟨i, t, ht, hsegment⟩ := h.exists_track_of_mem_edges he
  have hthreads := h.threads i t ht
  rcases Track.ends_of_mem_segments hsegment with ⟨hpair, htarget⟩ | ⟨hsource, htarget⟩
  · -- Between gates the numbers themselves rise.
    have hsource : e.source ∈ t.front := (List.of_mem_zip hpair).1
    rw [hthreads.rank_of_mem_front hsource, hthreads.rank_of_mem_gates htarget]
    exact of_mem_consecutive (h.ascending i t ht) hpair
  · rw [htarget, hthreads.rank_output, hthreads.rank_of_mem_front hsource]
    exact hthreads.lt_size_of_mem_front hsource

theorem Sound.ends_lt_size (h : c.Sound) {e : Edge} (he : e ∈ c.edges) :
    e.source < c.size ∧ e.target < c.size := by
  obtain ⟨i, t, ht, hsegment⟩ := h.exists_track_of_mem_edges he
  have hthreads := h.threads i t ht
  rcases Track.ends_of_mem_segments hsegment with ⟨hpair, htarget⟩ | ⟨hsource, htarget⟩
  · exact ⟨hthreads.lt_size_of_mem_front (List.of_mem_zip hpair).1,
      hthreads.lt_size_of_mem_front (List.mem_cons_of_mem _ htarget)⟩
  · rw [htarget]
    exact ⟨hthreads.lt_size_of_mem_front hsource, lt_size_of_contentAt? hthreads.output_content⟩

theorem Sound.isAcyclic (h : c.Sound) : Graph.isAcyclic c.size c.edges = true :=
  (Graph.isAcyclic_iff fun _ he => h.ends_lt_size he).mpr h.isRank.acyclic

/-! ## Wires and edges -/

theorem Sound.actsOn (h : c.Sound) (ht : c.tracks[i]? = some t) {id : Nat}
    (hid : id ∈ t.gates.toList) :
    ∃ g, c.gateAt? id = some g ∧ g.touches t.declared.wire = true := by
  obtain ⟨g, hg, htouches⟩ := (h.mem_gates i t ht id).mp hid
  exact ⟨g, gateAt?_eq_some_iff.mpr hg, htouches⟩

theorem Threaded.joined (h : c.Threaded) (ht : c.tracks[i]? = some t) {a b : Nat}
    (hab : (a, b) ∈ consecutive t.path) : ⟨a, b, t.declared.wire⟩ ∈ c.edges := by
  refine h.edges_perm.mem_iff.mpr (List.mem_flatMap.mpr ⟨t, ?_, ?_⟩)
  · exact Array.mem_toList_iff.mpr (Array.mem_of_getElem? ht)
  · exact List.mem_map.mpr ⟨(a, b), hab, rfl⟩

theorem Sound.trackFault?_eq_none (h : c.Sound) (ht : c.tracks[i]? = some t) :
    c.trackFault? t = none := by
  have hthreads := h.threads i t ht
  have hacts : t.gates.toList.find? (!c.actsOn t.declared.wire ·) = none := by
    refine List.find?_eq_none.mpr fun id hid => ?_
    obtain ⟨g, hg, htouches⟩ := h.actsOn ht hid
    simp [Circuit.actsOn, hg, htouches]
  have hjoined : (consecutive t.path).find? (fun s => !c.isJoined t.declared.wire s.1 s.2) =
      none := by
    refine List.find?_eq_none.mpr fun s hs => ?_
    have hany : c.isJoined t.declared.wire s.1 s.2 = true :=
      List.any_eq_true.mpr ⟨_, h.joined ht hs, by simp [Wire.sameWire]⟩
    simp [hany]
  have hinput := hthreads.input_content
  have houtput := hthreads.output_content
  unfold contentAt? at hinput houtput
  unfold trackFault?
  simp only
  rw [if_neg (not_not_intro hinput), if_neg (not_not_intro houtput), hacts, hjoined]
  rfl

theorem Threaded.length_edges (h : c.Threaded) : c.edges.length = c.expectedEdges := by
  rw [h.edges_perm.length_eq, List.length_flatMap, expectedEdges, ← List.sum_eq_foldr]
  simp only [Track.length_segments]

/-! ## Every gate once on each of its wires -/

theorem Sound.count_gates (h : c.Sound) {id : Nat} (hg : c.contentAt? id = some (.gate g))
    (ht : c.tracks[i]? = some t) :
    t.gates.toList.count id = if g.touches t.declared.wire then 1 else 0 := by
  have hascending : t.gates.toList.Pairwise (· < ·) := (h.ascending i t ht).of_cons
  have hnodup : t.gates.toList.Nodup := hascending.imp Nat.ne_of_lt
  have hmem : id ∈ t.gates.toList ↔ g.touches t.declared.wire = true := by
    rw [h.mem_gates i t ht id, hg]
    constructor
    · rintro ⟨g', heq, htouches⟩
      cases heq
      exact htouches
    · exact fun htouches => ⟨g, rfl, htouches⟩
  rw [hnodup.count]
  simp only [hmem]

theorem Threaded.nodup_wires (h : c.Threaded) : (c.tracks.toList.map (·.declared.wire)).Nodup := by
  refine List.nodup_iff_getElem?_ne_getElem?.mpr fun i j hij hj heq => ?_
  rw [List.length_map, Array.length_toList] at hj
  have hi : i < c.tracks.size := by omega
  simp only [List.getElem?_map, Array.getElem?_toList, Array.getElem?_eq_getElem hi,
    Array.getElem?_eq_getElem hj, Option.map_some, Option.some.injEq] at heq
  have hindex := congrArg Wire.index heq
  rw [(h.threads i _ (Array.getElem?_eq_getElem hi)).index_eq,
    (h.threads j _ (Array.getElem?_eq_getElem hj)).index_eq] at hindex
  omega

/-- The operands of a gate are different wires. -/
theorem nodup_positive_operands (hg : c.Admits g) : (g.operands.map Wire.positive).Nodup := by
  obtain ⟨-, -, hpair⟩ := (Gate.validate_eq_ok_iff g).mp hg.valid
  refine List.pairwise_map.mpr (hpair.imp fun hdiffer heq => ?_)
  rw [Wire.sameWire_iff_positive_eq.mpr heq] at hdiffer
  cases hdiffer

/-- The tracks that a gate touches are those of its operands. -/
theorem Threaded.perm_touched (h : c.Threaded) (hg : c.Admits g) :
    ((c.tracks.toList.filter fun t => g.touches t.declared.wire).map (·.declared.wire)).Perm
      (g.operands.map Wire.positive) := by
  have hsub : ((c.tracks.toList.filter fun t => g.touches t.declared.wire).map
      (·.declared.wire)).Nodup := (List.filter_sublist.map _).nodup h.nodup_wires
  refine (List.perm_ext_iff_of_nodup hsub (nodup_positive_operands hg)).mpr fun w => ?_
  constructor
  · intro hw
    obtain ⟨t, ht, rfl⟩ := List.mem_map.mp hw
    obtain ⟨htrack, htouches⟩ := List.mem_filter.mp ht
    obtain ⟨i, hi⟩ := Array.mem_iff_getElem?.mp (Array.mem_toList_iff.mp htrack)
    obtain ⟨v, hv, rfl⟩ := List.mem_map.mp ((h.touches_iff hg hi).mp htouches)
    exact List.mem_map.mpr ⟨v, hv, (h.wire_eq_positive (hg.onWires v hv) hi).symm⟩
  · intro hw
    obtain ⟨v, hv, rfl⟩ := List.mem_map.mp hw
    obtain ⟨t, ht, -⟩ := exists_track_of_isSome (hg.onWires v hv)
    refine List.mem_map.mpr ⟨t, List.mem_filter.mpr ⟨?_, ?_⟩, ?_⟩
    · exact Array.mem_toList_iff.mpr (Array.mem_of_getElem? ht)
    · exact (h.touches_iff hg ht).mpr (List.mem_map_of_mem hv)
    · exact h.wire_eq_positive (hg.onWires v hv) ht

/-- Where each track holds a node once or not at all, it stands on as many
tracks as hold it. -/
theorem count_flatMap_gates {id : Nat} {p : Track → Bool} {tracks : List Track}
    (h : ∀ t ∈ tracks, t.gates.toList.count id = if p t then 1 else 0) :
    (tracks.flatMap (·.gates.toList)).count id = (tracks.filter p).length := by
  induction tracks with
  | nil => rfl
  | cons t tracks ih =>
    obtain ⟨hfirst, hrest⟩ := List.forall_mem_cons.mp h
    rw [List.flatMap_cons, List.count_append, hfirst, ih hrest, List.filter_cons]
    split
    · rw [List.length_cons, Nat.add_comm]
    · rw [Nat.zero_add]

theorem Sound.count_appearances (h : c.Sound) {id : Nat}
    (hg : c.contentAt? id = some (.gate g)) :
    c.appearances.count id = g.operands.length := by
  have hcount : ∀ t ∈ c.tracks.toList,
      t.gates.toList.count id = if g.touches t.declared.wire then 1 else 0 := by
    intro t ht
    obtain ⟨i, hi⟩ := Array.mem_iff_getElem?.mp (Array.mem_toList_iff.mp ht)
    exact h.count_gates hg hi
  have htouched := (h.perm_touched (h.admitted id g hg)).length_eq
  rw [List.length_map, List.length_map] at htouched
  rw [appearances, count_flatMap_gates hcount, htouched]

theorem eraseDups_of_nodup {ws : List Wire} (h : ws.Nodup) : ws.eraseDups = ws := by
  induction ws with
  | nil => rfl
  | cons w ws ih =>
    obtain ⟨hw, hrest⟩ := List.nodup_cons.mp h
    have hfilter : ws.filter (fun v => !v == w) = ws :=
      List.filter_eq_self.mpr fun v hv => by simpa using fun heq : v = w => hw (heq ▸ hv)
    rw [List.eraseDups_cons, hfilter, ih hrest]

theorem Sound.orderFault?_eq_none (h : c.Sound) : c.orderFault? = none := by
  refine List.findSome?_eq_none_iff.mpr fun id hid => ?_
  obtain ⟨g, hgate⟩ := Option.isSome_iff_exists.mp
    (h.mem_gateOrder_iff.mp (Array.mem_toList_iff.mp hid))
  have hg := gateAt?_eq_some_iff.mp hgate
  have hdistinct := nodup_positive_operands (h.admitted id g hg)
  have hcount : c.appearances.count id = (g.operands.map Wire.positive).eraseDups.length := by
    rw [h.count_appearances hg, eraseDups_of_nodup hdistinct, List.length_map]
  rw [entryFault?, hgate]
  exact if_neg (not_not_intro hcount)

/-! ## The check -/

theorem Sound.integrity_eq_ok (h : c.Sound) : c.integrity = .ok () := by
  have htracks : c.tracks.toList.findSome? c.trackFault? = none := by
    refine List.findSome?_eq_none_iff.mpr fun t ht => ?_
    obtain ⟨i, hi⟩ := Array.mem_iff_getElem?.mp (Array.mem_toList_iff.mp ht)
    exact h.trackFault?_eq_none hi
  have hfault : c.fault? = none := by
    unfold fault?
    rw [h.isAcyclic, if_neg (by simp), htracks]
    simp only
    rw [if_neg (not_not_intro h.length_edges.symm), h.orderFault?_eq_none]
  rw [integrity, hfault]

theorem Sound.intact (h : c.Sound) : c.Intact := by
  have htracks : ∀ t ∈ c.tracks, ∃ i : Nat, c.tracks[i]? = some t := fun t ht =>
    Array.mem_iff_getElem?.mp ht
  refine ⟨h.isRank.acyclic, ?_, ?_, ?_, ?_, h.length_edges,
    fun id => h.mem_gateOrder_iff.mp, ?_⟩
  · intro t ht
    obtain ⟨i, hi⟩ := htracks t ht
    exact (h.threads i t hi).input_content
  · intro t ht
    obtain ⟨i, hi⟩ := htracks t ht
    exact (h.threads i t hi).output_content
  · intro t ht id hid
    obtain ⟨i, hi⟩ := htracks t ht
    exact h.actsOn hi (Array.mem_toList_iff.mpr hid)
  · intro t ht a b hab
    obtain ⟨i, hi⟩ := htracks t ht
    exact h.joined hi hab
  · intro id g hgate w hw
    have hg := gateAt?_eq_some_iff.mp hgate
    have hadmits := h.admitted id g hg
    obtain ⟨t, ht⟩ := Option.isSome_iff_exists.mp (hadmits.onWires w hw)
    have hget := (Option.filter_eq_some_iff.mp ht).1
    refine ⟨t, ht, ?_⟩
    rw [h.count_gates hg hget,
      if_pos ((h.touches_iff hadmits hget).mpr (List.mem_map_of_mem hw))]

end CircuitSynthesis.Circuit
