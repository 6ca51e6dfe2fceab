import CircuitSynthesis.Proofs.Circuit.Compaction
import CircuitSynthesis.Proofs.Circuit.Navigation
import CircuitSynthesis.Proofs.Simulation.Reordering
import Mathlib.Order.Bounds.Image

/-!
# Depth

The depth is computed in one pass over the gates, from a level for each wire,
and never looks at the graph. After every gate the level of a wire is the
length of the longest chain that ends in a gate on that wire, where in a chain
each gate shares a wire with the next (`Levelled.step`). A path of the graph
passes through a chain of gates, since its inputs and outputs can only stand
at its ends; and two gates of a chain are joined by a stretch of a common
wire, so that every chain lies on a path. Without marked gates, chains and
paths therefore have the same greatest length (`depth_isGreatest`).
-/

namespace CircuitSynthesis

/-! ## Chains of gates -/

/-- Gates out of a list, in its order, each of which shares a wire with the
next. -/
structure Gate.IsChainIn (gates chain : List Gate) : Prop where
  sublist : chain.Sublist gates
  linked : chain.IsChain fun g h => g.sharesWire h = true

/-- The lengths of the chains whose last gate, if there is one, has a property. -/
def Gate.chainLengths (gates : List Gate) (P : Gate → Prop) : Set Nat :=
  {k | ∃ chain, Gate.IsChainIn gates chain ∧ (∀ g ∈ chain.getLast?, P g) ∧ chain.length = k}

theorem isGreatest_foldl_max (l : List Nat) (a : Nat) :
    IsGreatest {k | k ∈ a :: l} (l.foldl max a) := by
  induction l generalizing a with
  | nil => simp
  | cons b l ih =>
    obtain ⟨hmem, hbound⟩ := ih (max a b)
    have hmax : max a b ≤ l.foldl max (max a b) := hbound List.mem_cons_self
    constructor
    · rcases List.mem_cons.mp hmem with heq | hmem
      · rw [List.foldl_cons, heq]
        rcases max_choice a b with hchoice | hchoice
        · simp [hchoice]
        · simp [hchoice]
      · simp [hmem]
    · intro k hk
      rcases List.mem_cons.mp hk with rfl | hk
      · exact (le_max_left _ _).trans hmax
      · rcases List.mem_cons.mp hk with rfl | hk
        · exact (le_max_right _ _).trans hmax
        · exact hbound (List.mem_cons_of_mem _ hk)

namespace Gate

variable {gates chain : List Gate} {g h : Gate} {P : Gate → Prop}

theorem isChainIn_nil (gates : List Gate) : IsChainIn gates [] :=
  ⟨List.nil_sublist _, List.isChain_nil⟩

theorem zero_mem_chainLengths (gates : List Gate) (P : Gate → Prop) : 0 ∈ chainLengths gates P :=
  ⟨[], isChainIn_nil gates, by simp, rfl⟩

theorem isGreatest_chainLengths_nil (P : Gate → Prop) : IsGreatest (chainLengths [] P) 0 := by
  refine ⟨zero_mem_chainLengths [] P, ?_⟩
  rintro k ⟨chain, hchain, -, rfl⟩
  simp [List.sublist_nil.mp hchain.sublist]

/-- A chain that ends in the last gate of the list goes on from a chain whose
last gate shares a wire with it. -/
theorem isChainIn_append_singleton_iff :
    IsChainIn (gates ++ [g]) (chain ++ [g]) ↔
      IsChainIn gates chain ∧ ∀ h ∈ chain.getLast?, h.sharesWire g = true := by
  constructor
  · intro hchain
    obtain ⟨hlinked, -, hlast⟩ := List.isChain_append.mp hchain.linked
    exact ⟨⟨List.append_sublist_append_right [g] |>.mp hchain.sublist, hlinked⟩,
      fun h hh => hlast h hh g rfl⟩
  · rintro ⟨hchain, hlast⟩
    refine ⟨hchain.sublist.append_right [g],
      List.isChain_append.mpr ⟨hchain.linked, List.isChain_singleton g, fun h hh k hk => ?_⟩⟩
    obtain rfl : g = k := by simpa using hk
    exact hlast h hh

/-- With one more gate, a chain is an old one or one that the gate prolongs. -/
theorem mem_chainLengths_append_singleton {k : Nat} :
    k ∈ chainLengths (gates ++ [g]) P ↔ k ∈ chainLengths gates P ∨
      P g ∧ k ∈ Nat.succ '' chainLengths gates fun h => h.sharesWire g = true := by
  constructor
  · rintro ⟨chain, hchain, hlast, rfl⟩
    obtain ⟨front, back, rfl, hfront, hback⟩ := List.sublist_append_iff.mp hchain.sublist
    rcases List.sublist_singleton.mp hback with rfl | rfl
    · rw [List.append_nil] at hchain hlast ⊢
      exact .inl ⟨front, ⟨hfront, hchain.linked⟩, hlast, rfl⟩
    · obtain ⟨hchain, hlink⟩ := isChainIn_append_singleton_iff.mp hchain
      exact .inr ⟨hlast g (by simp), front.length, ⟨front, hchain, hlink, rfl⟩, by simp⟩
  · rintro (⟨chain, hchain, hlast, rfl⟩ | ⟨hP, j, ⟨chain, hchain, hlink, rfl⟩, rfl⟩)
    · exact ⟨chain, ⟨hchain.sublist.trans (List.sublist_append_left _ _), hchain.linked⟩, hlast,
        rfl⟩
    · exact ⟨chain ++ [g], isChainIn_append_singleton_iff.mpr ⟨hchain, hlink⟩, by simpa using hP,
        by simp⟩

theorem chainLengths_append_singleton (hP : P g) :
    chainLengths (gates ++ [g]) P =
      chainLengths gates P ∪ Nat.succ '' chainLengths gates fun h => h.sharesWire g = true := by
  ext k
  rw [mem_chainLengths_append_singleton, and_iff_right hP, Set.mem_union]

/-- A gate without the property ends none of the chains. -/
theorem chainLengths_append_singleton_of_not (hP : ¬P g) :
    chainLengths (gates ++ [g]) P = chainLengths gates P := by
  ext k
  rw [mem_chainLengths_append_singleton]
  exact or_iff_left fun hprolonged => hP hprolonged.1

theorem size_bring (g : Gate) (value : Nat) (levels : Array Nat) :
    (g.bring value levels).size = levels.size :=
  List.foldlRecOn (motive := fun l : Array Nat => l.size = levels.size) g.operands _ rfl
    fun _ hl _ _ => (Array.size_setIfInBounds ..).trans hl

end Gate

/-! ## Levels -/

namespace Circuit

open Gate (IsChainIn chainLengths)

variable {c : Circuit} {gates chain : List Gate} {g h : Gate} {levels : Array Nat} {depth : Nat}

/-- Gates of one circuit share a wire exactly when they share a position. -/
theorem Admits.sharesWire_iff (hg : c.Admits g) (hh : c.Admits h) :
    g.sharesWire h = true ↔ ∃ w ∈ h.operands, w.index ∈ g.indices := by
  constructor
  · intro hshare
    obtain ⟨v, hv, htouches⟩ := List.any_eq_true.mp hshare
    obtain ⟨w, hw, hsame⟩ := List.any_eq_true.mp htouches
    exact ⟨w, hw, List.mem_map.mpr ⟨v, hv, (Wire.sameWire_iff.mp hsame).1.symm⟩⟩
  · rintro ⟨w, hw, hindex⟩
    by_contra hshare
    exact hg.disjoint_indices hh (Bool.eq_false_iff.mpr hshare) hindex (List.mem_map_of_mem hw)

theorem Admits.lt_wireCount (hg : c.Admits g) {i : Nat} (hi : i ∈ g.indices) :
    i < c.wireCount := by
  obtain ⟨w, hw, rfl⟩ := List.mem_map.mp hi
  obtain ⟨t, ht, -⟩ := exists_track_of_isSome (hg.onWires w hw)
  exact (Array.getElem?_eq_some_iff.mp ht).1

/-- The level of a wire is the greatest length of a chain that ends on it, and
the depth is the greatest length of any chain. -/
structure Levelled (c : Circuit) (gates : List Gate) (s : Array Nat × Nat) : Prop where
  size_eq : s.1.size = c.wireCount
  wire : ∀ i, IsGreatest (chainLengths gates (i ∈ ·.indices)) (s.1.getD i 0)
  all : IsGreatest (chainLengths gates fun _ => True) s.2

theorem levelled_nil (c : Circuit) : c.Levelled [] (Array.replicate c.wireCount 0, 0) where
  size_eq := Array.size_replicate
  wire i := by
    have hzero : (Array.replicate c.wireCount 0).getD i 0 = 0 := by
      rw [Array.getD_eq_getD_getElem?, Array.getElem?_replicate]
      split <;> rfl
    rw [hzero]
    exact Gate.isGreatest_chainLengths_nil _
  all := Gate.isGreatest_chainLengths_nil _

/-- The highest wire of a gate tells which chains it can prolong. -/
theorem Levelled.isGreatest_linked (hs : c.Levelled gates (levels, depth))
    (hgates : ∀ h ∈ gates, c.Admits h) (hg : c.Admits g) :
    IsGreatest (Nat.succ '' chainLengths gates fun h => h.sharesWire g = true)
      (g.level levels) := by
  refine Monotone.map_isGreatest (fun _ _ => Nat.succ_le_succ) ?_
  obtain ⟨hmem, hbound⟩ := isGreatest_foldl_max (g.operands.map fun w => levels.getD w.index 0) 0
  constructor
  · rcases List.mem_cons.mp hmem with hzero | hmem
    · rw [hzero]
      exact Gate.zero_mem_chainLengths gates _
    · obtain ⟨w, hw, hlevel⟩ := List.mem_map.mp hmem
      obtain ⟨chain, hchain, hlast, hlength⟩ := (hs.wire w.index).1
      refine ⟨chain, hchain, fun h hh => ?_, hlength.trans hlevel⟩
      have hadmits := hgates h (hchain.sublist.subset (List.mem_of_getLast? hh))
      exact (hadmits.sharesWire_iff hg).mpr ⟨w, hw, hlast h hh⟩
  · rintro k ⟨chain, hchain, hlink, rfl⟩
    cases hlast : chain.getLast? with
    | none => simp [List.getLast?_eq_none_iff.mp hlast]
    | some h =>
      have hadmits := hgates h (hchain.sublist.subset (List.mem_of_getLast? hlast))
      obtain ⟨w, hw, hindex⟩ := (hadmits.sharesWire_iff hg).mp (hlink h hlast)
      have hlevel : chain.length ≤ levels.getD w.index 0 :=
        (hs.wire w.index).2 ⟨chain, hchain, by simpa [hlast] using hindex, rfl⟩
      exact hlevel.trans (hbound (List.mem_cons_of_mem _ (List.mem_map_of_mem hw)))

/-- One gate more: its wires rise to the chains that it prolongs, all others
keep their level. -/
theorem Levelled.step {s : Array Nat × Nat} (hs : c.Levelled gates s)
    (hgates : ∀ h ∈ gates, c.Admits h) (hg : c.Admits g) :
    c.Levelled (gates ++ [g]) (depthStep s g) := by
  obtain ⟨levels, depth⟩ := s
  have hnew := hs.isGreatest_linked hgates hg
  rw [Gate.depthStep_eq]
  refine ⟨(Gate.size_bring ..).trans hs.size_eq, fun i => ?_, ?_⟩
  · by_cases hi : i ∈ g.indices
    · have hlt : i < levels.size := (hg.lt_wireCount hi).trans_eq hs.size_eq.symm
      have hlevel : (g.bring (g.level levels) levels).getD i 0 = g.level levels := by
        simp [Array.getD_eq_getD_getElem?, Gate.getElem?_bring, hi, hlt]
      -- A chain that ends on one of the gate's wires is one that the gate prolongs.
      have hless : levels.getD i 0 ≤ g.level levels := by
        obtain ⟨w, hw, rfl⟩ := List.mem_map.mp hi
        refine Nat.le_succ_of_le ((isGreatest_foldl_max _ 0).2 ?_)
        exact List.mem_cons_of_mem _ (List.mem_map_of_mem hw)
      rw [Gate.chainLengths_append_singleton hi, hlevel, ← max_eq_right hless]
      exact (hs.wire i).union hnew
    · have hlevel : (g.bring (g.level levels) levels).getD i 0 = levels.getD i 0 := by
        simp [Array.getD_eq_getD_getElem?, Gate.getElem?_bring, hi]
      rw [Gate.chainLengths_append_singleton_of_not hi, hlevel]
      exact hs.wire i
  · rw [Gate.chainLengths_append_singleton trivial]
    exact hs.all.union hnew

theorem levelled_foldl (hgates : ∀ g ∈ gates, c.Admits g) :
    c.Levelled gates (gates.foldl depthStep (Array.replicate c.wireCount 0, 0)) := by
  induction gates using List.reverseRecOn with
  | nil => exact c.levelled_nil
  | append_singleton gates g ih =>
    have hold : ∀ h ∈ gates, c.Admits h := fun h hh => hgates h (List.mem_append_left _ hh)
    rw [List.foldl_append]
    exact (ih hold).step hold (hgates g (by simp))

/-- The depth is the greatest length of a chain of unmarked gates. -/
theorem Sound.depth_isGreatest_chain (hc : c.Sound) :
    IsGreatest {k | ∃ chain, IsChainIn c.liveGates chain ∧ chain.length = k} c.depth := by
  have hall := (levelled_foldl fun g hg => hc.admits_of_mem_liveGates hg).all
  simpa [chainLengths, Circuit.depth] using hall

/-! ## Paths -/

/-- A directed path: nodes of the circuit, each joined to the next by an edge. -/
structure IsPath (c : Circuit) (path : List Nat) : Prop where
  lt_size : ∀ id ∈ path, id < c.size
  joined : path.IsChain (Graph.Leads c.edges)

/-- The gate nodes on a path. -/
def gatesOn (c : Circuit) (path : List Nat) : List Nat :=
  path.filter fun id => (c.gateAt? id).isSome

/-- The second node is a younger gate than the first on a common wire. -/
def Precedes (c : Circuit) (a b : Nat) : Prop :=
  a < b ∧ ∃ g h, c.gateAt? a = some g ∧ c.gateAt? b = some h ∧ g.sharesWire h = true

theorem gateAt?_of_mem_gates {p : Nat × Gate} (hp : p ∈ c.gates) : c.gateAt? p.1 = some p.2 := by
  obtain ⟨id, -, hlive⟩ := List.mem_filterMap.mp hp
  obtain ⟨g, hg, rfl⟩ := Option.map_eq_some_iff.mp hlive
  exact gateAt?_of_liveGateAt? hg

theorem isSome_gateAt?_of_map_eq {ids : List Nat} (hmap : ids.map c.gateAt? = chain.map some) :
    ∀ id ∈ ids, (c.gateAt? id).isSome = true := by
  intro id hid
  have hmem : c.gateAt? id ∈ chain.map some := hmap ▸ List.mem_map_of_mem hid
  obtain ⟨g, -, hg⟩ := List.mem_map.mp hmem
  rw [← hg]
  rfl

/-- Without marks, gates in the order they were appended are gates under
ascending numbers. -/
theorem Untagged.sublist_liveGates_iff (h : c.Untagged) (hindexed : c.Indexed) :
    chain.Sublist c.liveGates ↔
      ∃ ids : List Nat, ids.Pairwise (· < ·) ∧ ids.map c.gateAt? = chain.map some := by
  have hordered := hindexed.pairwise_gateOrder
  have hids : c.gates.map Prod.fst = c.gateOrder.toList := by
    rw [hindexed.map_fst_gates]
    exact List.filter_eq_self.mpr fun id _ => by rw [h.isMarked_eq]; rfl
  have hmap : ∀ {ps : List (Nat × Gate)}, ps.Sublist c.gates →
      (ps.map Prod.fst).map c.gateAt? = (ps.map Prod.snd).map some := by
    intro ps hps
    rw [List.map_map, List.map_map]
    exact List.map_congr_left fun p hp => gateAt?_of_mem_gates (hps.subset hp)
  rw [← map_snd_gates, List.sublist_map_iff]
  constructor
  · rintro ⟨ps, hps, rfl⟩
    exact ⟨ps.map Prod.fst, hordered.sublist (hids ▸ hps.map Prod.fst), hmap hps⟩
  · rintro ⟨ids, hascending, hgates⟩
    have hsub : ids ⊆ c.gateOrder.toList := fun id hid => Array.mem_toList_iff.mpr
      (hindexed.mem_gateOrder_iff.mpr (isSome_gateAt?_of_map_eq hgates id hid))
    have hsublist : ids.Sublist c.gateOrder.toList := List.sublist_of_subperm_of_pairwise
      (List.subperm_of_subset (hascending.imp Nat.ne_of_lt) hsub) hascending hordered
    obtain ⟨ps, hps, rfl⟩ := List.sublist_map_iff.mp (hids ▸ hsublist)
    refine ⟨ps, hps, (List.map_injective_iff.mpr (Option.some_injective _)) ?_⟩
    rw [← hgates, hmap hps]

/-- Without marks, the chains of gates are the chains of their nodes. -/
theorem Untagged.isChainIn_iff (h : c.Untagged) (hindexed : c.Indexed) :
    IsChainIn c.liveGates chain ↔
      ∃ ids : List Nat, ids.IsChain c.Precedes ∧ ids.map c.gateAt? = chain.map some := by
  have hget : ∀ {ids : List Nat}, ids.map c.gateAt? = chain.map some →
      ids.length = chain.length ∧ ∀ (i : Nat) (hi : i < ids.length) (hi' : i < chain.length),
        c.gateAt? ids[i] = some chain[i] := by
    intro ids hmap
    refine ⟨by simpa using congrArg List.length hmap, fun i hi hi' => ?_⟩
    simpa [hi, hi'] using congrArg (·[i]?) hmap
  constructor
  · rintro ⟨hsublist, hlinked⟩
    obtain ⟨ids, hascending, hmap⟩ := (h.sublist_liveGates_iff hindexed).mp hsublist
    obtain ⟨hlength, hgates⟩ := hget hmap
    refine ⟨ids, List.isChain_iff_getElem.mpr fun i hi => ⟨?_, ?_⟩, hmap⟩
    · exact List.pairwise_iff_getElem.mp hascending i (i + 1) _ _ (Nat.lt_succ_self i)
    · exact ⟨_, _, hgates i _ (by omega), hgates (i + 1) hi (by omega),
        List.isChain_iff_getElem.mp hlinked i (by omega)⟩
  · rintro ⟨ids, hchain, hmap⟩
    obtain ⟨hlength, hgates⟩ := hget hmap
    have hascending : ids.IsChain (· < ·) := hchain.imp fun _ _ hab => hab.1
    refine ⟨(h.sublist_liveGates_iff hindexed).mpr
      ⟨ids, List.isChain_iff_pairwise.mp hascending, hmap⟩, ?_⟩
    refine List.isChain_iff_getElem.mpr fun i hi => ?_
    obtain ⟨-, g, g', hg, hg', hshare⟩ := List.isChain_iff_getElem.mp hchain i (by omega)
    rw [hgates i _ (by omega)] at hg
    rw [hgates (i + 1) _ hi] at hg'
    cases hg
    cases hg'
    exact hshare

/-! ## From paths to chains -/

/-- An edge comes from an input or a gate, and leads to a younger gate of the
same wire or to its output. -/
theorem Sound.ends_of_leads (hc : c.Sound) {a b : Nat} (hab : Graph.Leads c.edges a b) :
    ∃ (i : Nat) (t : Track), c.tracks[i]? = some t ∧ a ∈ t.front ∧
      (a < b ∧ b ∈ t.gates.toList ∨ b = t.output) := by
  obtain ⟨e, he, rfl, rfl⟩ := hab
  obtain ⟨i, t, ht, hsegment⟩ := hc.exists_track_of_mem_edges he
  refine ⟨i, t, ht, ?_⟩
  rcases Track.ends_of_mem_segments hsegment with ⟨hpair, htarget⟩ | ⟨hsource, htarget⟩
  · exact ⟨(List.of_mem_zip hpair).1,
      .inl ⟨of_mem_consecutive (hc.ascending i t ht) hpair, htarget⟩⟩
  · exact ⟨hsource, .inr htarget⟩

theorem Threads.gateAt?_input {i : Nat} {t : Track} (h : c.Threads i t) :
    c.gateAt? t.input = none := by
  rw [Option.eq_none_iff_forall_ne_some]
  intro g hg
  rw [gateAt?_eq_some_iff, h.input_content] at hg
  cases hg

theorem Threads.gateAt?_output {i : Nat} {t : Track} (h : c.Threads i t) :
    c.gateAt? t.output = none := by
  rw [Option.eq_none_iff_forall_ne_some]
  intro g hg
  rw [gateAt?_eq_some_iff, h.output_content] at hg
  cases hg

/-- Between gates, an edge leads to a younger gate on a common wire. -/
theorem Sound.precedes_of_leads (hc : c.Sound) {a b : Nat} (hab : Graph.Leads c.edges a b)
    (ha : (c.gateAt? a).isSome = true) (hb : (c.gateAt? b).isSome = true) : c.Precedes a b := by
  obtain ⟨i, t, ht, hfront, ⟨hlt, htarget⟩ | rfl⟩ := hc.ends_of_leads hab
  · have hsource : a ∈ t.gates.toList := by
      rcases List.mem_cons.mp hfront with rfl | hsource
      · rw [(hc.threads i t ht).gateAt?_input] at ha
        cases ha
      · exact hsource
    obtain ⟨g, hg, htouches⟩ := hc.actsOn ht hsource
    obtain ⟨h, hh, htouches'⟩ := hc.actsOn ht htarget
    exact ⟨hlt, g, h, hg, hh, Gate.sharesWire_of_touches htouches htouches'⟩
  · rw [(hc.threads i t ht).gateAt?_output] at hb
    cases hb

/-- A node that a path passes through is a gate. -/
theorem Sound.isSome_gateAt?_of_leads (hc : c.Sound) {a b d : Nat}
    (hab : Graph.Leads c.edges a b) (hbd : Graph.Leads c.edges b d) :
    (c.gateAt? b).isSome = true := by
  obtain ⟨i, t, ht, -, ⟨-, htarget⟩ | rfl⟩ := hc.ends_of_leads hab
  · obtain ⟨g, hg, -⟩ := hc.actsOn ht htarget
    rw [hg]
    rfl
  · obtain ⟨j, t', ht', hfront, -⟩ := hc.ends_of_leads hbd
    have houtput := (hc.threads i t ht).output_content
    rcases List.mem_cons.mp hfront with hinput | hgate
    · rw [hinput, (hc.threads j t' ht').input_content] at houtput
      cases houtput
    · obtain ⟨g, hg⟩ := (hc.threads j t' ht').gate_content _ hgate
      rw [hg] at houtput
      cases houtput

/-- The gates on a path follow one another without a gap. -/
theorem Sound.isChain_gatesOn (hc : c.Sound) {path : List Nat}
    (hpath : path.IsChain (Graph.Leads c.edges)) :
    (c.gatesOn path).IsChain (Graph.Leads c.edges) := by
  unfold gatesOn
  induction path with
  | nil => exact List.isChain_nil
  | cons a rest ih =>
    have hrest := ih hpath.tail
    by_cases ha : (c.gateAt? a).isSome = true
    · rw [List.filter_cons, if_pos ha]
      refine List.isChain_cons.mpr ⟨fun b hb => ?_, hrest⟩
      cases rest with
      | nil => cases hb
      | cons b' rest =>
        obtain ⟨hab, hnext⟩ := List.isChain_cons_cons.mp hpath
        by_cases hb' : (c.gateAt? b').isSome = true
        · rw [List.filter_cons, if_pos hb'] at hb
          obtain rfl : b' = b := by simpa using hb
          exact hab
        · -- The path ends in an output.
          cases rest with
          | nil => simp [hb'] at hb
          | cons d rest =>
            exact absurd (hc.isSome_gateAt?_of_leads hab (List.isChain_cons_cons.mp hnext).1) hb'
    · rw [List.filter_cons, if_neg ha]
      exact hrest

theorem Sound.exists_chain_of_isPath (hc : c.Sound) (huntagged : c.Untagged) {path : List Nat}
    (hpath : c.IsPath path) :
    ∃ chain, IsChainIn c.liveGates chain ∧ chain.length = (c.gatesOn path).length := by
  have hgate : ∀ id ∈ c.gatesOn path, (c.gateAt? id).isSome = true := fun id hid =>
    (List.mem_filter.mp hid).2
  have hchain : (c.gatesOn path).IsChain c.Precedes :=
    (hc.isChain_gatesOn hpath.joined).imp_of_mem_imp fun a b ha hb hab =>
      hc.precedes_of_leads hab (hgate a ha) (hgate b hb)
  have hmap : (c.gatesOn path).map c.gateAt? =
      ((c.gatesOn path).filterMap c.gateAt?).map some := by
    rw [List.map_filterMap_some_eq_filter_map_isSome]
    exact (List.filter_eq_self.mpr (by simpa using hgate)).symm
  refine ⟨_, (huntagged.isChainIn_iff hc.toIndexed).mpr ⟨c.gatesOn path, hchain, hmap⟩, ?_⟩
  simpa using (congrArg List.length hmap).symm

/-! ## From chains to paths -/

theorem isChain_of_consecutive {R : Nat → Nat → Prop} {l : List Nat}
    (h : ∀ a b, (a, b) ∈ consecutive l → R a b) : l.IsChain R :=
  List.isChain_iff_getElem.mpr fun i hi => h _ _ <| mem_consecutive_iff.mpr
    ⟨i, List.getElem?_eq_getElem _, List.getElem?_eq_getElem hi⟩

/-- In an ascending list, what holds along the list holds of a lower and a
higher entry. -/
theorem of_ascending {R : Nat → Nat → Prop} {l : List Nat} (h : l.Pairwise R)
    (hascending : l.Pairwise (· < ·)) {a b : Nat} (ha : a ∈ l) (hb : b ∈ l) (hab : a < b) :
    R a b := by
  have hsublist : [a, b].Sublist l := List.sublist_of_subperm_of_pairwise
    (List.subperm_of_subset (by simpa using hab.ne) (by simp [ha, hb])) (by simpa using hab)
    hascending
  simpa using h.sublist hsublist

/-- From a gate there is a way along a common wire to every younger one. -/
theorem Sound.transGen_of_precedes (hc : c.Sound) {a b : Nat} (hab : c.Precedes a b) :
    Relation.TransGen (Graph.Leads c.edges) a b := by
  obtain ⟨hlt, g, h, hg, hh, hshare⟩ := hab
  rw [gateAt?_eq_some_iff] at hg hh
  have hadmits := hc.admitted a g hg
  obtain ⟨w, hw, hindex⟩ := (hadmits.sharesWire_iff (hc.admitted b h hh)).mp hshare
  obtain ⟨t, ht, -⟩ := exists_track_of_isSome ((hc.admitted b h hh).onWires w hw)
  have ha : a ∈ t.front := List.mem_cons_of_mem _ <| (hc.mem_gates _ t ht a).mpr
    ⟨g, hg, (hc.touches_iff hadmits ht).mpr hindex⟩
  have hb : b ∈ t.front := List.mem_cons_of_mem _ <| (hc.mem_gates _ t ht b).mpr
    ⟨h, hh, (hc.touches_iff (hc.admitted b h hh) ht).mpr (List.mem_map_of_mem hw)⟩
  have hways : t.front.Pairwise (Relation.TransGen (Graph.Leads c.edges)) := by
    have hpath : t.path.IsChain (Graph.Leads c.edges) := isChain_of_consecutive
      fun a b hab => ⟨_, hc.joined ht hab, rfl, rfl⟩
    rw [Track.path_eq] at hpath
    exact List.isChain_iff_pairwise.mp (hpath.left_of_append.imp fun _ _ => .single)
  -- The numbers rise along the wire, so the lower one comes first.
  exact of_ascending hways (hc.ascending _ t ht) ha hb hlt

/-- Nodes with a way from each to the next lie on one path. -/
theorem exists_isChain_of_transGen {r : Nat → Nat → Prop} {a : Nat} {ids : List Nat}
    (h : (a :: ids).IsChain (Relation.TransGen r)) :
    ∃ rest, (a :: rest).IsChain r ∧ ids.Sublist rest := by
  induction ids generalizing a with
  | nil => exact ⟨[], List.isChain_singleton a, .refl _⟩
  | cons b ids ih =>
    obtain ⟨hab, hids⟩ := List.isChain_cons_cons.mp h
    obtain ⟨rest, hrest, hsublist⟩ := ih hids
    clear h
    induction hab using Relation.TransGen.head_induction_on with
    | single hstep =>
      exact ⟨b :: rest, List.isChain_cons_cons.mpr ⟨hstep, hrest⟩, hsublist.cons_cons b⟩
    | head hstep _ ih =>
      obtain ⟨rest', hrest', hsublist'⟩ := ih
      exact ⟨_ :: rest', List.isChain_cons_cons.mpr ⟨hstep, hrest'⟩, hsublist'.cons _⟩

/-- Every node of a path but the first is where an edge leads. -/
theorem exists_rel_of_isChain_cons {r : Nat → Nat → Prop} {a : Nat} {rest : List Nat}
    (h : (a :: rest).IsChain r) : ∀ b ∈ rest, ∃ d, r d b := by
  induction rest generalizing a with
  | nil => simp
  | cons b rest ih =>
    obtain ⟨hab, hrest⟩ := List.isChain_cons_cons.mp h
    exact List.forall_mem_cons.mpr ⟨⟨a, hab⟩, ih hrest⟩

theorem Sound.exists_isPath_of_chain (hc : c.Sound) (huntagged : c.Untagged)
    (hchain : IsChainIn c.liveGates chain) :
    ∃ path, c.IsPath path ∧ chain.length ≤ (c.gatesOn path).length := by
  obtain ⟨ids, hids, hmap⟩ := (huntagged.isChainIn_iff hc.toIndexed).mp hchain
  have hlength : ids.length = chain.length := by simpa using congrArg List.length hmap
  have hgate := isSome_gateAt?_of_map_eq hmap
  cases ids with
  | nil => exact ⟨[], ⟨by simp, List.isChain_nil⟩, by simp [← hlength]⟩
  | cons a ids =>
    obtain ⟨rest, hrest, hsublist⟩ := exists_isChain_of_transGen
      (hids.imp fun _ _ => hc.transGen_of_precedes)
    refine ⟨a :: rest, ⟨List.forall_mem_cons.mpr ⟨?_, fun b hb => ?_⟩, hrest⟩, ?_⟩
    · obtain ⟨g, hg⟩ := Option.isSome_iff_exists.mp (hgate a List.mem_cons_self)
      exact lt_size_of_contentAt? (gateAt?_eq_some_iff.mp hg)
    · obtain ⟨_, e, he, -, rfl⟩ := exists_rel_of_isChain_cons hrest b hb
      exact (hc.ends_lt_size he).2
    · rw [← hlength, ← List.filter_eq_self.mpr hgate]
      exact ((hsublist.cons_cons a).filter _).length_le

/-- Without marked gates, the depth is the greatest number of gates on a path. -/
theorem Sound.depth_isGreatest_path (hc : c.Sound) (huntagged : c.Untagged) :
    IsGreatest {k | ∃ path, c.IsPath path ∧ (c.gatesOn path).length = k} c.depth := by
  obtain ⟨⟨chain, hchain, hlength⟩, hbound⟩ := hc.depth_isGreatest_chain
  have hpaths : ∀ path, c.IsPath path → (c.gatesOn path).length ≤ c.depth := by
    intro path hpath
    obtain ⟨chain, hchain, hlength⟩ := hc.exists_chain_of_isPath huntagged hpath
    exact hbound ⟨chain, hchain, hlength⟩
  constructor
  · obtain ⟨path, hpath, hle⟩ := hc.exists_isPath_of_chain huntagged hchain
    exact ⟨path, hpath, (hpaths path hpath).antisymm (hlength ▸ hle)⟩
  · rintro k ⟨path, hpath, rfl⟩
    exact hpaths path hpath

/-- **Depth.** The depth of a reachable circuit is the greatest number of gates
on a path through the graph of its compacted copy. It is also the greatest
length of a chain of unmarked gates: gates in the order they were appended,
each of which shares a wire with the next. -/
theorem depth_isGreatest (hc : c.Reachable) :
    IsGreatest {k | ∃ path, c.compact.IsPath path ∧ (c.compact.gatesOn path).length = k} c.depth ∧
      IsGreatest {k | ∃ chain, IsChainIn c.liveGates chain ∧ chain.length = k} c.depth := by
  have hcompact := hc.sound.compact.depth_isGreatest_path (untagged_compact c)
  have hdepth : c.compact.depth = c.depth := by
    rw [Circuit.depth, Circuit.depth, compact_wireCount, compact_liveGates]
  exact ⟨hdepth ▸ hcompact, hc.sound.depth_isGreatest_chain⟩

/-- A marked CNOT would join the gates on either side of it to a chain of four;
a classical bit is declared between the gates. -/
def bridged : Circuit := ofHistory [.addWire .qubit, .addWire .qubit, .addWire .qubit,
  .append (.cx (.qubit 0) (.qubit 1)), .append ⟨.hadamard, [], [.qubit 0]⟩,
  .append (.cx (Wire.qubit 1).complement (.qubit 2)), .addNamedWire .cbit "result",
  .append ⟨.t, [], [.qubit 2]⟩, .append ⟨.measure, [], [.qubit 2, .cbit 3]⟩,
  .append ⟨.swap, [], [.qubit 0, .qubit 1]⟩, .setMarked 8 true]

theorem depth_isGreatest_bridged :
    bridged.Reachable ∧ bridged.isMarked 8 = true ∧
      IsGreatest {k | ∃ path, bridged.compact.IsPath path ∧
        (bridged.compact.gatesOn path).length = k} 3 ∧
      IsGreatest {k | ∃ chain, IsChainIn bridged.liveGates chain ∧ chain.length = k} 3 := by
  have hc : bridged.Reachable := ⟨_, rfl⟩
  have hdepth : bridged.depth = 3 := by decide
  obtain ⟨hpath, hchain⟩ := depth_isGreatest hc
  exact ⟨hc, rfl, hdepth ▸ hpath, hdepth ▸ hchain⟩

end Circuit

end CircuitSynthesis
