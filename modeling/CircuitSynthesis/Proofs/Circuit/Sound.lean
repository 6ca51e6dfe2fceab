import CircuitSynthesis.Proofs.Circuit.Indices

/-!
# Sound circuits

In a sound circuit the gates on a wire are exactly the gate nodes that act on
it, in the order of their numbers, and every gate is one that the circuit
admits. Declaring a wire, appending an admitted gate, tagging nodes, replacing
the wire permutation and leaving out the marked gates keep a circuit sound.
-/

namespace CircuitSynthesis.Circuit

variable {c d : Circuit} {g : Gate} {w : Wire} {t : Track} {i : Nat}

/-- Wires and edges are in step, and so is what is kept a second time; every
wire lists the gates that act on it in ascending order, all gates are admitted
and the wires are permuted. -/
structure Sound (c : Circuit) : Prop extends Threaded c, Indexed c where
  ascending : ∀ (i : Nat) (t : Track), c.tracks[i]? = some t → t.front.Pairwise (· < ·)
  mem_gates : ∀ (i : Nat) (t : Track), c.tracks[i]? = some t → ∀ id, id ∈ t.gates.toList ↔
    ∃ g, c.contentAt? id = some (.gate g) ∧ g.touches t.declared.wire = true
  admitted : ∀ id g, c.contentAt? id = some (.gate g) → c.Admits g
  rewiring_perm : IsRangePermutation c.wireCount c.rewiring

theorem sound_empty : Sound empty where
  threads i t ht := by simp [empty] at ht
  edges_perm := .refl _
  toIndexed := indexed_empty
  ascending i t ht := by simp [empty] at ht
  mem_gates i t ht := by simp [empty] at ht
  admitted id g hg := by simp [empty, contentAt?] at hg
  rewiring_perm := ⟨rfl, List.nodup_nil, by simp [empty]⟩

/-! ## Tags and the wire permutation -/

/-- Soundness does not depend on tags, nor on which wire permutation it is. -/
theorem Sound.congr (h : c.Sound) (hcontent : ∀ id, d.contentAt? id = c.contentAt? id)
    (hedges : d.edges = c.edges) (htracks : d.tracks = c.tracks) (hindexed : d.Indexed)
    (hperm : IsRangePermutation d.wireCount d.rewiring) : d.Sound where
  toIndexed := hindexed
  threads i t ht :=
    (h.threads i t (htracks ▸ ht)).mono fun id x hx => (hcontent id).trans hx
  edges_perm := by rw [hedges, htracks]; exact h.edges_perm
  ascending i t ht := h.ascending i t (htracks ▸ ht)
  mem_gates i t ht id := by
    rw [hcontent]
    exact h.mem_gates i t (htracks ▸ ht) id
  admitted id g hg := by
    have hdecl : c.declarations = d.declarations := by rw [declarations, declarations, htracks]
    exact (h.admitted id g ((hcontent id).symm.trans hg)).congr hdecl
  rewiring_perm := hperm

theorem Sound.rewired (h : c.Sound) {map : List Nat} (hmap : IsRangePermutation c.wireCount map) :
    Sound { c with rewiring := map } :=
  h.congr (fun _ => rfl) rfl rfl (h.toIndexed.rewired map) hmap

theorem Sound.retagged (h : c.Sound) (hd : Retagged c d) : d.Sound := by
  refine h.congr hd.content_eq hd.edges_eq hd.tracks_eq (h.toIndexed.retagged hd) ?_
  rw [wireCount, hd.tracks_eq, hd.rewiring_eq]
  exact h.rewiring_perm

/-! ## Declaring a wire -/

theorem isSome_track?_addWire {kind : Wire.Kind} {label : Option String}
    (h : (c.track? w).isSome = true) : ((c.addWire kind label).1.track? w).isSome = true := by
  unfold track? at h ⊢
  cases ht : c.tracks[w.index]? with
  | none => rw [ht] at h; cases h
  | some t =>
    have hlt := (Array.getElem?_eq_some_iff.mp ht).1
    have hpush : (c.addWire kind label).1.tracks[w.index]? = some t := by
      show (c.tracks.push _)[w.index]? = _
      rw [Array.getElem?_push, if_neg (by omega), ht]
    rw [hpush, ← ht]
    exact h

/-- The track of a wire that is on the circuit carries its kind. -/
theorem exists_track_of_isSome (h : (c.track? w).isSome = true) :
    ∃ t, c.tracks[w.index]? = some t ∧ t.declared.wire.kind = w.kind := by
  obtain ⟨t, ht⟩ := Option.isSome_iff_exists.mp h
  obtain ⟨hget, hkind⟩ := Option.filter_eq_some_iff.mp ht
  exact ⟨t, hget, by simpa using hkind⟩

/-- No gate of a circuit acts on a wire that is not declared yet. -/
theorem Admits.touches_ofKind_wireCount (h : c.Admits g) (kind : Wire.Kind) :
    g.touches (.ofKind kind c.wireCount) = false := by
  rw [Gate.touches, List.any_eq_false]
  intro v hv hsame
  obtain ⟨t, ht, -⟩ := exists_track_of_isSome (h.onWires v hv)
  have hlt : v.index < c.wireCount := (Array.getElem?_eq_some_iff.mp ht).1
  have hindex : v.index = c.wireCount := (Wire.sameWire_iff.mp hsame).1
  omega

theorem isRangePermutation_append_singleton {n : Nat} {values : List Nat}
    (h : IsRangePermutation n values) : IsRangePermutation (n + 1) (values ++ [n]) where
  length_eq := by rw [List.length_append, h.length_eq]; rfl
  nodup := by
    rw [List.nodup_append]
    refine ⟨h.nodup, by simp, fun v hv w hw => ?_⟩
    have := h.lt v hv
    rw [List.mem_singleton.mp hw]
    omega
  lt v hv := by
    rcases List.mem_append.mp hv with hv | hv
    · have := h.lt v hv
      omega
    · rw [List.mem_singleton.mp hv]
      omega

theorem Sound.addWire (h : c.Sound) (kind : Wire.Kind) (label : Option String) :
    (c.addWire kind label).1.Sound := by
  -- A track is an old one, or the one just declared.
  have htracks : ∀ i t, (c.addWire kind label).1.tracks[i]? = some t → c.tracks[i]? = some t ∨
      i = c.wireCount ∧ t = ⟨⟨.ofKind kind c.wireCount, label⟩, c.nodes.size, #[],
        c.nodes.size + 1⟩ := by
    intro i t ht
    change (c.tracks.push _)[i]? = some t at ht
    rw [Array.getElem?_push] at ht
    split at ht
    · next hi => exact .inr ⟨hi, (Option.some.inj ht).symm⟩
    · exact .inl ht
  constructor
  · constructor
    · intro i t ht
      rcases htracks i t ht with ht | ⟨rfl, rfl⟩
      · exact (h.threads i t ht).mono fun _ _ => contentAt?_addWire_of_some
      · refine ⟨rfl, ?_, ?_, by simp⟩
        · rw [contentAt?_addWire, if_pos rfl]
        · rw [contentAt?_addWire, if_neg (by simp), if_pos rfl]
    · show (_ :: c.edges).Perm ((c.tracks.push _).toList.flatMap Track.segments)
      rw [Array.toList_push, List.flatMap_append]
      exact (h.edges_perm.cons _).trans (List.perm_append_singleton _ _).symm
  · exact h.toIndexed.addWire kind label
  · intro i t ht
    rcases htracks i t ht with ht | ⟨rfl, rfl⟩
    · exact h.ascending i t ht
    · simp [Track.front]
  · intro i t ht id
    simp only [contentAt?_addWire_eq_gate_iff]
    rcases htracks i t ht with ht | ⟨rfl, rfl⟩
    · exact h.mem_gates i t ht id
    · refine ⟨by simp, ?_⟩
      rintro ⟨g, hg, htouches⟩
      rw [(h.admitted id g hg).touches_ofKind_wireCount] at htouches
      cases htouches
  · intro id g hg
    have hg := h.admitted id g (contentAt?_addWire_eq_gate_iff.mp hg)
    exact ⟨hg.valid, fun w hw => isSome_track?_addWire (hg.onWires w hw)⟩
  · have hcount : (c.addWire kind label).1.wireCount = c.wireCount + 1 := Array.size_push _
    rw [hcount]
    exact isRangePermutation_append_singleton h.rewiring_perm

/-! ## Appending a gate -/

/-- An admitted gate acts on wires of different indices. -/
theorem Admits.nodup_indices (h : c.Admits g) : (g.operands.map Wire.index).Nodup := by
  obtain ⟨-, -, hpair⟩ := (Gate.validate_eq_ok_iff g).mp h.valid
  refine List.pairwise_map.mpr (hpair.imp_of_mem fun {v w} hv hw hdiffer hindex => ?_)
  -- A wire of the circuit is known by its index alone.
  obtain ⟨t, ht, hkind⟩ := exists_track_of_isSome (h.onWires v hv)
  obtain ⟨t', ht', hkind'⟩ := exists_track_of_isSome (h.onWires w hw)
  rw [hindex, ht'] at ht
  cases ht
  rw [Wire.sameWire_iff.mpr ⟨hindex, hkind.symm.trans hkind'⟩] at hdiffer
  cases hdiffer

theorem Threads.index_eq (h : c.Threads i t) : t.declared.wire.index = i := by
  rw [h.wire_eq]
  rfl

/-- The track under the index of an operand is that of the operand. -/
theorem Threaded.wire_eq_positive (h : c.Threaded) (hw : (c.track? w).isSome = true)
    (ht : c.tracks[w.index]? = some t) : t.declared.wire = w.positive := by
  obtain ⟨t', ht', hkind⟩ := exists_track_of_isSome hw
  rw [ht] at ht'
  cases ht'
  rw [(h.threads w.index t ht).wire_eq, hkind]
  rfl

theorem Threaded.touches_iff (h : c.Threaded) (hg : c.Admits g) (ht : c.tracks[i]? = some t) :
    g.touches t.declared.wire = true ↔ i ∈ g.operands.map Wire.index := by
  rw [Gate.touches, List.any_eq_true, List.mem_map]
  refine exists_congr fun v => and_congr_right fun hv => ?_
  rw [Wire.sameWire_iff, (h.threads i t ht).index_eq]
  refine ⟨fun hsame => hsame.1, fun hindex => ⟨hindex, ?_⟩⟩
  rw [h.wire_eq_positive (hg.onWires v hv) (hindex ▸ ht)]
  rfl

theorem Threaded.foldl_attach (h : c.Threaded) {id : Nat} (hid : c.contentAt? id = some (.gate g))
    {ws : List Wire} (hws : ∀ w ∈ ws, ∃ t, c.tracks[w.index]? = some t ∧ t.declared.wire = w) :
    (ws.foldl (Circuit.attach id) c).Threaded := by
  induction ws generalizing c with
  | nil => exact h
  | cons w ws ih =>
    obtain ⟨⟨t, ht, hw⟩, hrest⟩ := List.forall_mem_cons.mp hws
    refine ih (h.attach hid ht hw) ((contentAt?_attach id c w id).trans hid) fun v hv => ?_
    obtain ⟨t', ht', hwire⟩ := hrest v hv
    rw [getElem?_tracks_attach, ht']
    split
    · exact ⟨_, rfl, hwire⟩
    · exact ⟨_, rfl, hwire⟩

/-- A node is attached once to each of different wires. -/
theorem getElem?_tracks_foldl_attach (id : Nat) {ws : List Wire}
    (hnodup : (ws.map Wire.index).Nodup) (c : Circuit) (i : Nat) :
    (ws.foldl (attach id) c).tracks[i]? =
      if i ∈ ws.map Wire.index then c.tracks[i]?.map (·.extend id) else c.tracks[i]? := by
  induction ws generalizing c with
  | nil => rfl
  | cons w ws ih =>
    obtain ⟨hfresh, hrest⟩ := List.nodup_cons.mp hnodup
    rw [List.foldl_cons, ih hrest, getElem?_tracks_attach, List.map_cons]
    by_cases hi : w.index = i
    · subst hi
      rw [if_neg hfresh, if_pos rfl, if_pos List.mem_cons_self]
    · have hmem : i ∈ w.index :: ws.map Wire.index ↔ i ∈ ws.map Wire.index := by
        rw [List.mem_cons]
        exact or_iff_right fun h => hi h.symm
      simp only [hmem, if_neg hi]

/-- The track after gate `g` was appended as node `id`. -/
def grown (g : Gate) (id : Nat) (t : Track) : Track :=
  if g.touches t.declared.wire then t.extend id else t

@[simp] theorem declared_grown (g : Gate) (id : Nat) (t : Track) :
    (grown g id t).declared = t.declared := by
  unfold grown
  split <;> rfl

theorem mem_gates_grown {id v : Nat} : v ∈ (grown g id t).gates.toList ↔
    v ∈ t.gates.toList ∨ v = id ∧ g.touches t.declared.wire = true := by
  unfold grown
  by_cases htouches : g.touches t.declared.wire = true
  · simp [htouches, Track.extend]
  · simp [htouches]

/-- An admitted gate is put at the end of the wires it acts on. -/
theorem Threaded.getElem?_tracks_place (h : c.Threaded) (hg : c.Admits g) (i : Nat) :
    (c.place g).tracks[i]? = c.tracks[i]?.map (grown g c.nodes.size) := by
  have hindices : (g.operands.map Wire.positive).map Wire.index = g.operands.map Wire.index := by
    rw [List.map_map]
    rfl
  have hpushed : (c.pushGate g).tracks = c.tracks := rfl
  unfold place
  rw [getElem?_tracks_foldl_attach _ (hindices ▸ hg.nodup_indices), hindices, hpushed]
  cases ht : c.tracks[i]? with
  | none => simp
  | some t =>
    simp only [Option.map_some, grown]
    by_cases htouches : g.touches t.declared.wire = true
    · rw [if_pos ((h.touches_iff hg ht).mp htouches), if_pos htouches]
    · rw [if_neg fun hi => htouches ((h.touches_iff hg ht).mpr hi), if_neg htouches]

theorem Threaded.place (h : c.Threaded) (hg : c.Admits g) : (c.place g).Threaded := by
  have hcontent : ∀ id x, c.contentAt? id = some x → (c.pushGate g).contentAt? id = some x := by
    intro id x hx
    have hlt := lt_size_of_contentAt? hx
    unfold contentAt? at hx ⊢
    rw [pushGate, Array.getElem?_push, if_neg (by omega), hx]
  have hpushed : (c.pushGate g).Threaded :=
    ⟨fun i t ht => (h.threads i t ht).mono hcontent, h.edges_perm⟩
  refine hpushed.foldl_attach (g := g) ?_ fun w hw => ?_
  · unfold contentAt?
    rw [pushGate, Array.getElem?_push, if_pos rfl]
    rfl
  · obtain ⟨v, hv, rfl⟩ := List.mem_map.mp hw
    obtain ⟨t, ht, -⟩ := exists_track_of_isSome (hg.onWires v hv)
    exact ⟨t, ht, h.wire_eq_positive (hg.onWires v hv) ht⟩

/-- All nodes of a wire but its output are older than the next node. -/
theorem Threads.lt_size_of_mem_front (h : c.Threads i t) {v : Nat} (hv : v ∈ t.front) :
    v < c.nodes.size := by
  rcases List.mem_cons.mp hv with rfl | hv
  · exact lt_size_of_contentAt? h.input_content
  · obtain ⟨g, hg⟩ := h.gate_content v hv
    exact lt_size_of_contentAt? hg

theorem Sound.place (h : c.Sound) (hg : c.Admits g) : (c.place g).Sound := by
  have htracks : ∀ (i : Nat) (t' : Track), (c.place g).tracks[i]? = some t' →
      ∃ t, c.tracks[i]? = some t ∧ grown g c.nodes.size t = t' := by
    intro i t' ht'
    rw [h.getElem?_tracks_place hg] at ht'
    exact Option.map_eq_some_iff.mp ht'
  refine ⟨h.toThreaded.place hg, h.toIndexed.place g, ?_, ?_, ?_, ?_⟩
  · intro i t' ht'
    obtain ⟨t, ht, rfl⟩ := htracks i t' ht'
    unfold grown
    split
    · rw [Track.front_extend, List.pairwise_append]
      refine ⟨h.ascending i t ht, List.pairwise_singleton _ _, fun a ha b hb => ?_⟩
      rw [List.mem_singleton.mp hb]
      exact (h.threads i t ht).lt_size_of_mem_front ha
    · exact h.ascending i t ht
  · intro i t' ht' id
    obtain ⟨t, ht, rfl⟩ := htracks i t' ht'
    rw [mem_gates_grown, declared_grown, contentAt?_place]
    by_cases hid : id = c.nodes.size
    · -- The new node is on the wire exactly when the new gate acts on it.
      have hfresh : id ∉ t.gates.toList := fun hmem =>
        absurd ((h.threads i t ht).lt_size_of_mem_front (List.mem_cons_of_mem _ hmem)) (by omega)
      simp [hid, hid ▸ hfresh]
    · rw [if_neg hid, ← h.mem_gates i t ht id]
      simp [hid]
  · intro id g' hg'
    rw [contentAt?_place] at hg'
    refine Admits.congr (place_declarations c g).symm ?_
    split at hg'
    · cases hg'
      exact hg
    · exact h.admitted id g' hg'
  · rw [place_rewiring, wireCount_eq_length_declarations, place_declarations,
      ← wireCount_eq_length_declarations]
    exact h.rewiring_perm

theorem Sound.foldl_place (h : c.Sound) {gates : List Gate} (hgates : ∀ g ∈ gates, c.Admits g) :
    (gates.foldl Circuit.place c).Sound := by
  induction gates generalizing c with
  | nil => exact h
  | cons g gates ih =>
    obtain ⟨hg, hrest⟩ := List.forall_mem_cons.mp hgates
    exact ih (h.place hg) fun g' hg' => (hrest g' hg').congr (place_declarations c g).symm

/-! ## Leaving out the marked gates -/

theorem Sound.foldl_addWire (h : c.Sound) (tracks : List Track) :
    (tracks.foldl (fun d t => (d.addWire t.declared.wire.kind t.declared.label).1) c).Sound := by
  induction tracks generalizing c with
  | nil => exact h
  | cons t tracks ih => exact ih (h.addWire _ _)

/-- Wires that are declared anew in their order get their indices back. -/
theorem declarations_foldl_addWire {tracks : List Track}
    (h : ∀ (i : Nat) (t : Track), tracks[i]? = some t →
      t.declared.wire = .ofKind t.declared.wire.kind (c.wireCount + i)) :
    (tracks.foldl (fun d t => (d.addWire t.declared.wire.kind t.declared.label).1) c).declarations =
      c.declarations ++ tracks.map (·.declared) := by
  induction tracks generalizing c with
  | nil => simp
  | cons t tracks ih =>
    have hfirst : t.declared = ⟨.ofKind t.declared.wire.kind c.wireCount, t.declared.label⟩ := by
      have := h 0 t rfl
      rw [Nat.add_zero] at this
      rw [← this]
    have hcount : (c.addWire t.declared.wire.kind t.declared.label).1.wireCount =
        c.wireCount + 1 := Array.size_push _
    rw [List.foldl_cons, ih, addWire_declarations, List.append_assoc, List.map_cons, ← hfirst]
    · rfl
    · intro i t' ht'
      rw [hcount, Nat.add_assoc, Nat.add_comm 1 i]
      exact h (i + 1) t' ht'

/-- Every gate that is not marked is admitted. -/
theorem Sound.admits_of_mem_liveGates (h : c.Sound) (hg : g ∈ c.liveGates) : c.Admits g := by
  obtain ⟨id, -, hlive⟩ := List.mem_filterMap.mp hg
  exact h.admitted id g (gateAt?_eq_some_iff.mp (gateAt?_of_liveGateAt? hlive))

/-- Declaring the wires of a circuit anew gives them their indices back. -/
theorem Threaded.declarations_foldl_addWire (h : c.Threaded) :
    (c.tracks.toList.foldl (fun d t => (d.addWire t.declared.wire.kind t.declared.label).1)
      empty).declarations = c.declarations := by
  refine (Circuit.declarations_foldl_addWire fun i t ht => ?_).trans (List.nil_append _)
  have hcount : empty.wireCount + i = i := Nat.zero_add i
  rw [hcount]
  exact (h.threads i t (by rwa [Array.getElem?_toList] at ht)).wire_eq

theorem Sound.compact (h : c.Sound) : c.compact.Sound := by
  have hdecl := h.declarations_foldl_addWire
  have hadmits : ∀ g ∈ c.liveGates, Admits (c.tracks.toList.foldl
      (fun d t => (d.addWire t.declared.wire.kind t.declared.label).1) empty) g :=
    fun g hg => (h.admits_of_mem_liveGates hg).congr hdecl.symm
  refine ((sound_empty.foldl_addWire c.tracks.toList).foldl_place hadmits).rewired ?_
  rw [foldl_place_wireCount, wireCount_eq_length_declarations, hdecl,
    ← wireCount_eq_length_declarations]
  exact h.rewiring_perm

end CircuitSynthesis.Circuit
