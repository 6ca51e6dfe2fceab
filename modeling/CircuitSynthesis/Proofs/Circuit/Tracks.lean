import CircuitSynthesis.Circuit.Integrity
import CircuitSynthesis.Proofs.Circuit.Append

/-!
# Wires as chains of edges

The edges of a circuit are, in some order, the segments of its wires: one for
each two nodes that follow one another. Attaching a node to a wire replaces
the segment into its output by two. The edge to be replaced is looked up by
its ends alone, but only the wire's own segment ends in its output, so that
edges and wires stay in step (`Threaded.attach`).
-/

namespace CircuitSynthesis

/-! ## Consecutive entries -/

namespace Circuit

theorem mem_consecutive_iff {l : List Nat} {a b : Nat} :
    (a, b) ∈ consecutive l ↔ ∃ i, l[i]? = some a ∧ l[i + 1]? = some b := by
  unfold consecutive
  rw [List.mem_iff_getElem?]
  refine exists_congr fun i => ?_
  rw [List.getElem?_zip_eq_some, List.getElem?_tail]

theorem consecutive_append_singleton (l : List Nat) (b : Nat) :
    consecutive (l ++ [b]) = consecutive l ++ (l.getLast?.map (·, b)).toList := by
  induction l with
  | nil => rfl
  | cons a l ih =>
    cases l with
    | nil => rfl
    | cons a' l =>
      rw [List.getLast?_cons_cons]
      exact congrArg ((a, a') :: ·) ih

/-- Entries that follow one another are in every relation that holds along the
list. -/
theorem of_mem_consecutive {R : Nat → Nat → Prop} {l : List Nat} (h : l.Pairwise R) {a b : Nat}
    (hab : (a, b) ∈ consecutive l) : R a b := by
  obtain ⟨i, ha, hb⟩ := mem_consecutive_iff.mp hab
  obtain ⟨hi, rfl⟩ := List.getElem?_eq_some_iff.mp ha
  obtain ⟨hi', rfl⟩ := List.getElem?_eq_some_iff.mp hb
  exact List.pairwise_iff_getElem.mp h i (i + 1) hi hi' (Nat.lt_succ_self i)

theorem length_consecutive (l : List Nat) : (consecutive l).length = l.length - 1 := by
  unfold consecutive
  rw [List.length_zip, List.length_tail]
  omega

end Circuit

/-! ## The segments of a wire -/

namespace Track

open Circuit (consecutive)

/-- All nodes on the wire but its output. -/
def front (t : Track) : List Nat := t.input :: t.gates.toList

/-- The edges that join the nodes on the wire. -/
def segments (t : Track) : List Edge :=
  (consecutive t.path).map fun s => ⟨s.1, s.2, t.declared.wire⟩

/-- The wire with a node more. -/
def extend (t : Track) (id : Nat) : Track := { t with gates := t.gates.push id }

variable {t : Track} {id : Nat} {e : Edge}

theorem path_eq (t : Track) : t.path = t.front ++ [t.output] := rfl

theorem front_extend (t : Track) (id : Nat) : (t.extend id).front = t.front ++ [id] := by
  simp [front, extend]

theorem getLast?_front (t : Track) : t.front.getLast? = some t.last := by
  rw [front, List.getLast?_cons, last, ← Array.getLast?_toList]

theorem last_extend (t : Track) (id : Nat) : (t.extend id).last = id := by
  simp [last, extend]

/-- The segments are those before the last node and the one into the output. -/
theorem segments_eq (t : Track) :
    t.segments = (consecutive t.front).map (fun s => ⟨s.1, s.2, t.declared.wire⟩) ++
      [⟨t.last, t.output, t.declared.wire⟩] := by
  rw [segments, path_eq, Circuit.consecutive_append_singleton, getLast?_front, List.map_append]
  rfl

/-- One more node takes the place of the segment into the output by two. -/
theorem segments_extend (t : Track) (id : Nat) :
    (t.extend id).segments = (consecutive t.front).map (fun s => ⟨s.1, s.2, t.declared.wire⟩) ++
      [⟨t.last, id, t.declared.wire⟩, ⟨id, t.output, t.declared.wire⟩] := by
  rw [segments_eq, last_extend, front_extend, Circuit.consecutive_append_singleton, getLast?_front,
    List.map_append, List.append_assoc]
  rfl

theorem wire_of_mem_segments (h : e ∈ t.segments) : e.wire = t.declared.wire := by
  obtain ⟨s, -, rfl⟩ := List.mem_map.mp h
  rfl

/-- A segment leads to a gate of the wire, from the node before it, or from the
last node to the output. -/
theorem ends_of_mem_segments (h : e ∈ t.segments) :
    ((e.source, e.target) ∈ consecutive t.front ∧ e.target ∈ t.gates.toList) ∨
      (e.source ∈ t.front ∧ e.target = t.output) := by
  rw [segments_eq] at h
  rcases List.mem_append.mp h with h | h
  · obtain ⟨s, hs, rfl⟩ := List.mem_map.mp h
    have htail := (List.of_mem_zip hs).2
    exact .inl ⟨hs, htail⟩
  · rw [List.mem_singleton.mp h]
    exact .inr ⟨List.mem_of_getLast? t.getLast?_front, rfl⟩

theorem last_segment_mem (t : Track) : ⟨t.last, t.output, t.declared.wire⟩ ∈ t.segments := by
  rw [segments_eq]
  exact List.mem_append_right _ (List.mem_singleton_self _)

theorem length_segments (t : Track) : t.segments.length = t.path.length - 1 := by
  rw [segments, List.length_map, Circuit.length_consecutive]

end Track

/-! ## Threaded circuits -/

namespace Circuit

/-- What a node stands for. -/
def contentAt? (c : Circuit) (id : Nat) : Option Node.Content := c.nodes[id]?.map (·.content)

theorem lt_size_of_contentAt? {c : Circuit} {id : Nat} {x : Node.Content}
    (h : c.contentAt? id = some x) : id < c.nodes.size := by
  obtain ⟨n, hn, -⟩ := Option.map_eq_some_iff.mp h
  exact (Array.getElem?_eq_some_iff.mp hn).1

theorem gateAt?_eq_some_iff {c : Circuit} {id : Nat} {g : Gate} :
    c.gateAt? id = some g ↔ c.contentAt? id = some (.gate g) := by
  unfold gateAt? contentAt?
  cases c.nodes[id]? with
  | none => simp
  | some n =>
    obtain ⟨content, marked, visited⟩ := n
    cases content <;> simp [Node.gate?]

/-- The track of wire `i` names that wire, starts at its input, ends at its
output and has gates between them. -/
structure Threads (c : Circuit) (i : Nat) (t : Track) : Prop where
  wire_eq : t.declared.wire = .ofKind t.declared.wire.kind i
  input_content : c.contentAt? t.input = some (.input t.declared.wire)
  output_content : c.contentAt? t.output = some (.output t.declared.wire)
  gate_content : ∀ id ∈ t.gates.toList, ∃ g, c.contentAt? id = some (.gate g)

/-- Every track is in order, and the edges are the segments of the tracks. -/
structure Threaded (c : Circuit) : Prop where
  threads : ∀ i t, c.tracks[i]? = some t → c.Threads i t
  edges_perm : c.edges.Perm (c.tracks.toList.flatMap Track.segments)

/-- Knowing more nodes does not disturb a track. -/
theorem Threads.mono {c d : Circuit} {i : Nat} {t : Track}
    (hcontent : ∀ id x, c.contentAt? id = some x → d.contentAt? id = some x)
    (h : c.Threads i t) : d.Threads i t :=
  ⟨h.wire_eq, hcontent _ _ h.input_content, hcontent _ _ h.output_content,
    fun id hid => (h.gate_content id hid).imp fun _ hg => hcontent _ _ hg⟩

theorem Threads.extend {c : Circuit} {i id : Nat} {t : Track} {g : Gate} (h : c.Threads i t)
    (hid : c.contentAt? id = some (.gate g)) : c.Threads i (t.extend id) := by
  refine ⟨h.wire_eq, h.input_content, h.output_content, fun id' hid' => ?_⟩
  rw [Track.extend, Array.toList_push] at hid'
  rcases List.mem_append.mp hid' with hid' | hid'
  · exact h.gate_content id' hid'
  · rw [List.mem_singleton.mp hid']
    exact ⟨g, hid⟩

/-- An edge into the output of a wire belongs to that wire. -/
theorem Threaded.wire_of_edge_to_output {c : Circuit} (h : c.Threaded) {i : Nat} {t : Track}
    (ht : c.tracks[i]? = some t) {e : Edge} (he : e ∈ c.edges) (houtput : e.target = t.output) :
    e.wire = t.declared.wire := by
  obtain ⟨t', ht', hsegment⟩ := List.mem_flatMap.mp (h.edges_perm.mem_iff.mp he)
  obtain ⟨j, hj⟩ := Array.mem_iff_getElem?.mp (Array.mem_toList_iff.mp ht')
  have hcontent := (h.threads i t ht).output_content
  rw [Track.wire_of_mem_segments hsegment]
  rcases Track.ends_of_mem_segments hsegment with ⟨-, hgate⟩ | ⟨-, hend⟩
  · -- A gate of the other wire is not an output.
    obtain ⟨g, hg⟩ := (h.threads j t' hj).gate_content _ hgate
    rw [houtput, hcontent] at hg
    cases hg
  · have hcontent' := (h.threads j t' hj).output_content
    rw [← hend, houtput, hcontent] at hcontent'
    exact (Node.Content.output.inj (Option.some.inj hcontent')).symm

/-! ## Attaching a node to a wire -/

theorem tracks_attach (id : Nat) (c : Circuit) (w : Wire) :
    (attach id c w).tracks = c.tracks.modify w.index (·.extend id) := by
  unfold attach
  cases h : c.tracks[w.index]? with
  | none =>
    show c.tracks = _
    apply Array.ext_getElem?
    intro i
    rw [Array.getElem?_modify]
    by_cases hi : w.index = i
    · rw [if_pos hi, ← hi, h]
      rfl
    · rw [if_neg hi]
  | some t => rfl

theorem getElem?_tracks_attach (id : Nat) (c : Circuit) (w : Wire) (i : Nat) :
    (attach id c w).tracks[i]? =
      if w.index = i then c.tracks[i]?.map (·.extend id) else c.tracks[i]? := by
  rw [tracks_attach, Array.getElem?_modify]

@[simp] theorem contentAt?_attach (id : Nat) (c : Circuit) (w : Wire) (v : Nat) :
    (attach id c w).contentAt? v = c.contentAt? v := by
  rw [contentAt?, (rethreaded_attach id c w).nodes_eq, contentAt?]

theorem toList_tracks_attach {id : Nat} {c : Circuit} {w : Wire} {t : Track}
    (ht : c.tracks[w.index]? = some t) :
    (attach id c w).tracks.toList = c.tracks.toList.set w.index (t.extend id) := by
  apply List.ext_getElem?
  intro i
  rw [Array.getElem?_toList, getElem?_tracks_attach, List.getElem?_set, Array.getElem?_toList]
  by_cases hi : w.index = i
  · obtain ⟨hlt, hget⟩ := Array.getElem?_eq_some_iff.mp (hi ▸ ht)
    simp [hi, hlt, hget]
  · simp [hi]

theorem edges_attach {id : Nat} {c : Circuit} {w : Wire} {t : Track}
    (ht : c.tracks[w.index]? = some t) :
    (attach id c w).edges = ⟨id, t.output, w⟩ :: ⟨t.last, id, w⟩ ::
      c.edges.eraseP fun e => e.source == t.last && e.target == t.output := by
  unfold attach
  rw [ht]

/-- Taking out an element that all matches agree on leaves the other elements. -/
theorem perm_cons_eraseP {l : List Edge} {p : Edge → Bool} {a : Edge} (ha : a ∈ l)
    (hp : p a = true) (honly : ∀ e ∈ l, p e = true → e = a) : l.Perm (a :: l.eraseP p) := by
  obtain ⟨b, l₁, l₂, -, hb, hl, herase⟩ := List.exists_of_eraseP ha hp
  have hbl : b ∈ l := by rw [hl]; simp
  rw [herase, ← honly b hbl hb]
  exact hl ▸ List.perm_middle

/-- The edge that is found by its ends is the last segment of the wire. -/
theorem Threaded.perm_cons_eraseP {c : Circuit} (h : c.Threaded) {i : Nat} {t : Track}
    (ht : c.tracks[i]? = some t) :
    c.edges.Perm (⟨t.last, t.output, t.declared.wire⟩ ::
      c.edges.eraseP fun e => e.source == t.last && e.target == t.output) := by
  have htrack : t ∈ c.tracks.toList := Array.mem_toList_iff.mpr (Array.mem_of_getElem? ht)
  have hmem : (⟨t.last, t.output, t.declared.wire⟩ : Edge) ∈ c.edges :=
    h.edges_perm.mem_iff.mpr (List.mem_flatMap.mpr ⟨t, htrack, t.last_segment_mem⟩)
  refine Circuit.perm_cons_eraseP hmem (by simp) fun e he hends => ?_
  obtain ⟨hsource, htarget⟩ : e.source = t.last ∧ e.target = t.output := by simpa using hends
  rw [← hsource, ← htarget, ← h.wire_of_edge_to_output ht he htarget]

/-- Where one track of a list gives up its last segment for others, so does
the list. -/
theorem perm_flatMap_set {l : List Track} {i : Nat} {t t' : Track} {rest new : List Edge}
    {old : Edge} (ht : l[i]? = some t) (hold : t.segments = rest ++ [old])
    (hnew : t'.segments = rest ++ new) :
    ((l.set i t').flatMap Track.segments ++ [old]).Perm (new ++ l.flatMap Track.segments) := by
  obtain ⟨hi, rfl⟩ := List.getElem?_eq_some_iff.mp ht
  have hsplit : l = l.take i ++ l[i] :: l.drop (i + 1) := by simp
  rw [List.set_eq_take_append_cons_drop, if_pos hi]
  conv => rhs; rw [hsplit]
  simp only [List.flatMap_append, List.flatMap_cons, hold, hnew, List.append_assoc]
  -- Both sides hold the same lists in another order.
  refine List.perm_iff_count.mpr fun e => ?_
  simp only [List.count_append]
  omega

/-- A node that is put at the end of a wire leaves edges and tracks in step. -/
theorem Threaded.attach {c : Circuit} (h : c.Threaded) {id : Nat} {g : Gate} {w : Wire} {t : Track}
    (hid : c.contentAt? id = some (.gate g)) (ht : c.tracks[w.index]? = some t)
    (hw : t.declared.wire = w) : (attach id c w).Threaded := by
  have hmono : ∀ v x, c.contentAt? v = some x → (Circuit.attach id c w).contentAt? v = some x :=
    fun v x hv => (contentAt?_attach id c w v).trans hv
  constructor
  · intro i t' ht'
    rw [getElem?_tracks_attach] at ht'
    split at ht'
    · obtain ⟨t₀, ht₀, rfl⟩ := Option.map_eq_some_iff.mp ht'
      exact ((h.threads i t₀ ht₀).extend hid).mono hmono
    · exact (h.threads i t' ht').mono hmono
  · have htracks := perm_flatMap_set (l := c.tracks.toList) (i := w.index) (by simpa using ht)
      t.segments_eq (t.segments_extend id)
    have hedges := h.edges_perm.symm.trans (h.perm_cons_eraseP ht)
    rw [hw] at htracks hedges
    rw [edges_attach ht, toList_tracks_attach ht]
    refine List.perm_iff_count.mpr fun e => ?_
    have hcount := List.perm_iff_count.mp htracks e
    have hcount' := List.perm_iff_count.mp hedges e
    simp only [List.count_append, List.count_cons, List.count_nil] at hcount hcount' ⊢
    omega

end Circuit

end CircuitSynthesis
