import CircuitSynthesis.Proofs.Circuit.Compaction
import CircuitSynthesis.Proofs.Simulation.Adjoint

/-!
# Cancelling adjoint gates

If on every wire of a gate its adjoint comes next, then no gate that was
appended between the two acts on these wires. The gate can be moved next to
its adjoint, where the two leave every basis state and its phase alone. So
both can be marked and left out (`Circuit.compact_cancelled`).
-/

namespace CircuitSynthesis

theorem Gate.touches_congr {g : Gate} {v w : Wire} (h : v.sameWire w = true) :
    g.touches v = g.touches w := by
  obtain ⟨hindex, hkind⟩ := Wire.sameWire_iff.mp h
  simp [touches, Wire.sameWire, hindex, hkind]

namespace Circuit

variable {c : Circuit} {a b m : Nat} {g h k : Gate} {w : Wire} {t : Track}

/-! ## Neighbours on a wire -/

/-- In an ascending list nothing lies between consecutive entries. -/
theorem le_of_mem_consecutive {l : List Nat} (hl : l.Pairwise (· < ·))
    (hab : (a, b) ∈ consecutive l) (hm : m ∈ l) (ham : a < m) : b ≤ m := by
  obtain ⟨i, ha, hb⟩ := mem_consecutive_iff.mp hab
  obtain ⟨hi, rfl⟩ := List.getElem?_eq_some_iff.mp ha
  obtain ⟨hi', rfl⟩ := List.getElem?_eq_some_iff.mp hb
  obtain ⟨j, hj, rfl⟩ := List.getElem_of_mem hm
  have hlt := List.pairwise_iff_getElem.mp hl
  have hij : i < j := by
    by_contra hji
    rcases Nat.lt_or_eq_of_le (Nat.le_of_not_lt hji) with hji | rfl
    · exact absurd (hlt j i hj hi hji) (by omega)
    · omega
  rcases Nat.lt_or_eq_of_le (Nat.succ_le_of_lt hij) with hij | rfl
  · exact (hlt (i + 1) j hi' hj hij).le
  · exact Nat.le_refl _

/-- Two gates that follow one another on a wire are consecutive there. -/
theorem Threaded.consecutive_of_successor? (h : c.Threaded)
    (hb : c.contentAt? b = some (.gate k)) (hnext : c.successor? a w = some b) :
    ∃ (i : Nat) (t : Track), c.tracks[i]? = some t ∧ t.declared.wire.sameWire w = true ∧
      (a, b) ∈ consecutive t.front := by
  obtain ⟨e, hfind, rfl⟩ := Option.map_eq_some_iff.mp hnext
  obtain ⟨hsource, hwire⟩ : e.source = a ∧ e.wire.sameWire w = true := by
    simpa using List.find?_some hfind
  obtain ⟨i, t, ht, hsegment⟩ := h.exists_track_of_mem_edges (List.mem_of_find?_eq_some hfind)
  refine ⟨i, t, ht, Track.wire_of_mem_segments hsegment ▸ hwire, ?_⟩
  rcases Track.ends_of_mem_segments hsegment with ⟨hconsecutive, -⟩ | ⟨-, houtput⟩
  · exact hsource ▸ hconsecutive
  · -- The output of a wire is not a gate.
    have hcontent := (h.threads i t ht).output_content
    rw [← houtput, hb] at hcontent
    cases hcontent

/-- No gate between two that follow one another on a wire acts on this wire. -/
theorem Sound.touches_eq_false_of_between (hc : c.Sound) (hb : c.contentAt? b = some (.gate h))
    (hnext : c.successor? a w = some b) (hm : c.contentAt? m = some (.gate k)) (ham : a < m)
    (hmb : m < b) : k.touches w = false := by
  obtain ⟨i, t, ht, hwire, hab⟩ := hc.consecutive_of_successor? hb hnext
  rw [Bool.eq_false_iff]
  intro htouches
  have hmem : m ∈ t.gates.toList :=
    (hc.mem_gates i t ht m).mpr ⟨k, hm, (Gate.touches_congr hwire).trans htouches⟩
  have hle := le_of_mem_consecutive (hc.ascending i t ht) hab (List.mem_cons_of_mem _ hmem) ham
  omega

theorem Sound.lt_of_successor? (hc : c.Sound) (hb : c.contentAt? b = some (.gate h))
    (hnext : c.successor? a w = some b) : a < b := by
  obtain ⟨i, t, ht, -, hab⟩ := hc.consecutive_of_successor? hb hnext
  exact of_mem_consecutive (hc.ascending i t ht) hab

/-! ## Leaving out two gates -/

theorem exists_split_two {α : Type} {l : List α} {i j : Nat} {x y : α} (hi : l[i]? = some x)
    (hj : l[j]? = some y) (hij : i < j) :
    ∃ l₁ l₂ l₃, l = l₁ ++ x :: (l₂ ++ y :: l₃) ∧ l₁.length = i ∧ i + 1 + l₂.length = j := by
  obtain ⟨hlti, rfl⟩ := List.getElem?_eq_some_iff.mp hi
  obtain ⟨hltj, rfl⟩ := List.getElem?_eq_some_iff.mp hj
  have hrest : l.drop (i + 1) =
      (l.drop (i + 1)).take (j - (i + 1)) ++ l[j] :: l.drop (j + 1) := by
    have hsplit := List.take_append_drop (j - (i + 1)) (l.drop (i + 1))
    rw [List.drop_drop, show i + 1 + (j - (i + 1)) = j by omega,
      List.drop_eq_getElem_cons hltj] at hsplit
    exact hsplit.symm
  refine ⟨l.take i, (l.drop (i + 1)).take (j - (i + 1)), l.drop (j + 1), ?_, ?_, ?_⟩
  · rw [← hrest, ← List.drop_eq_getElem_cons hlti, List.take_append_drop]
  · simp only [List.length_take]
    omega
  · simp only [List.length_take, List.length_drop]
    omega

theorem of_liveGate?_eq_some {n : Node} (hn : n.liveGate? = some g) :
    n.marked = false ∧ n.gate? = some g := by
  unfold Node.liveGate? at hn
  cases hmarked : n.marked with
  | true => simp [hmarked] at hn
  | false => simpa [hmarked] using hn

/-- Setting a mark replaces one node. -/
theorem exists_setMarked (hc : c.Indexed) {l₁ l₂ : List Node} {n : Node}
    (hnodes : c.nodes.toList = l₁ ++ n :: l₂) (value : Bool) :
    ∃ d, setMarked l₁.length value c = .ok n.marked d ∧ d.Indexed ∧ d.wireCount = c.wireCount ∧
      d.nodes.toList = l₁ ++ { n with marked := value } :: l₂ := by
  have hn : c.nodes[l₁.length]? = some n := by simp [← Array.getElem?_toList, hnodes]
  refine ⟨_, retag_of_node hn _ _, hc.retagged (retagged_replaceNode hn rfl), rfl, ?_⟩
  simp [replaceNode, hnodes]

/-- Marking two gates takes them out of the list of gates that act, and
nothing else. The gates between them have numbers between theirs. -/
theorem exists_setMarked_two (hc : c.Indexed) {n n' : Node} (ha : c.nodes[a]? = some n)
    (hb : c.nodes[b]? = some n') (hab : a < b) (hg : n.liveGate? = some g)
    (hh : n'.liveGate? = some h) :
    ∃ d d' before between after, setMarked a true c = .ok false d ∧
      setMarked b true d = .ok false d' ∧ d'.wireCount = c.wireCount ∧
      c.liveGates = before ++ g :: (between ++ h :: after) ∧
      d'.liveGates = before ++ (between ++ after) ∧
      ∀ k ∈ between, ∃ m, a < m ∧ m < b ∧ c.contentAt? m = some (.gate k) := by
  rw [← Array.getElem?_toList] at ha hb
  obtain ⟨l₁, l₂, l₃, hnodes, rfl, rfl⟩ := exists_split_two ha hb hab
  obtain ⟨d, hd, hindexed, hcount, hnodes'⟩ := exists_setMarked hc hnodes true
  have hsplit : d.nodes.toList = (l₁ ++ { n with marked := true } :: l₂) ++ n' :: l₃ := by
    rw [hnodes', List.append_assoc, List.cons_append]
  obtain ⟨d', hd', hindexed', hcount', hnodes''⟩ := exists_setMarked hindexed hsplit true
  have hlength : (l₁ ++ { n with marked := true } :: l₂).length = l₁.length + 1 + l₂.length := by
    rw [List.length_append, List.length_cons]
    omega
  rw [(of_liveGate?_eq_some hg).1] at hd
  rw [(of_liveGate?_eq_some hh).1, hlength] at hd'
  refine ⟨d, d', l₁.filterMap (·.liveGate?), l₂.filterMap (·.liveGate?),
    l₃.filterMap (·.liveGate?), hd, hd', hcount'.trans hcount, ?_, ?_, ?_⟩
  · simp [hc.liveGates_eq, hnodes, hg, hh]
  · simp [hindexed'.liveGates_eq, hnodes'', Node.liveGate?]
  · intro k hk
    obtain ⟨u, hu, hlive⟩ := List.mem_filterMap.mp hk
    obtain ⟨p, hp, rfl⟩ := List.getElem_of_mem hu
    refine ⟨l₁.length + 1 + p, by omega, by omega, gateAt?_eq_some_iff.mp ?_⟩
    have hget : c.nodes[l₁.length + 1 + p]? = some l₂[p] := by
      rw [← Array.getElem?_toList, hnodes, List.getElem?_append_right (by omega),
        show l₁.length + 1 + p - l₁.length = p + 1 by omega, List.getElem?_cons_succ,
        List.getElem?_append_left hp, List.getElem?_eq_getElem hp]
    rw [gateAt?, hget]
    exact (of_liveGate?_eq_some hlive).2

/-! ## Cancellation -/

/-- A gate and its adjoint vanish if all gates between them are on other wires. -/
theorem foldl_advance_cancel {before between after : List Gate}
    (hundo : ∀ s, Gate.advance (Gate.advance s g) h = s)
    (hbetween : ∀ k ∈ between, List.Disjoint k.indices g.indices) (s : Nat × Fin 8) :
    (before ++ g :: (between ++ h :: after)).foldl Gate.advance s =
      (before ++ (between ++ after)).foldl Gate.advance s := by
  have hmove (s : Nat × Fin 8) : between.foldl Gate.advance (Gate.advance s g) =
      Gate.advance (between.foldl Gate.advance s) g :=
    (step_foldl_of_comm (fun k hk => Gate.advance_comm (hbetween k hk)) s).symm
  simp only [List.foldl_append, List.foldl_cons, hmove, hundo]

theorem exists_node_of_unmarked (ha : c.gateAt? a = some g) (hmarked : c.isMarked a = false) :
    ∃ n, c.nodes[a]? = some n ∧ n.liveGate? = some g := by
  obtain ⟨n, hn, hgate⟩ := Option.bind_eq_some_iff.mp ha
  have hlive : n.marked = false := by simpa [isMarked, hn] using hmarked
  exact ⟨n, hn, by simpa [Node.liveGate?, hlive] using hgate⟩

/-- Gates between two neighbours act on other wires than the first of them. -/
theorem Sound.disjoint_of_between (hc : c.Sound) (hg : c.Admits g)
    (hb : c.contentAt? b = some (.gate h)) (hnext : ∀ w ∈ g.operands, c.successor? a w = some b)
    (hm : c.contentAt? m = some (.gate k)) (ham : a < m) (hmb : m < b) :
    List.Disjoint k.indices g.indices := by
  refine (hc.admitted m k hm).disjoint_indices hg ?_
  rw [Gate.sharesWire, List.any_eq_false]
  intro w hw htouches
  obtain ⟨v, hv, hsame⟩ := List.any_eq_true.mp htouches
  have hnot := hc.touches_eq_false_of_between hb (hnext v hv) hm ham hmb
  rw [Gate.touches_congr hsame, Gate.touches_of_mem hw] at hnot
  cases hnot

/-- A circuit with fewer gates that moves a state the same way gives the same
output and phase. -/
theorem outcome_of_foldl_advance_eq {d : Circuit} {x y : Nat}
    (hvalid : ∀ k ∈ c.liveGates, k.validate = .ok ())
    (hexact : ∀ k ∈ c.liveGates, k.isExact = true) (hcount : d.wireCount = c.wireCount)
    (hkept : ∀ k ∈ d.liveGates, k ∈ c.liveGates)
    (hsame : (∀ k ∈ c.liveGates, k.isClassical = true) →
      d.liveGates.foldl Gate.advance (x, 0) = c.liveGates.foldl Gate.advance (x, 0))
    (hsimulate : c.simulate x = .ok y) :
    d.simulate x = .ok y ∧ ∃ phase, c.phaseOf x = .ok phase ∧ d.phaseOf x = .ok phase := by
  obtain ⟨hwidth, hclassical, hrun⟩ := (simulate_eq_ok_iff 0).mp hsimulate
  have hwidth' : d.wireCount ≤ Bits.wordSize := hcount ▸ hwidth
  have hclassical' := fun k hk => hclassical k (hkept k hk)
  constructor
  · exact (simulate_eq_ok_iff 0).mpr ⟨hwidth', hclassical', hsame hclassical ▸ hrun⟩
  · refine ⟨_, (phaseOf_eq_ok_iff hvalid hexact).mpr ⟨hwidth, hclassical, rfl⟩, ?_⟩
    rw [← hsame hclassical]
    exact (phaseOf_eq_ok_iff (fun k hk => hvalid k (hkept k hk))
      fun k hk => hexact k (hkept k hk)).mpr ⟨hwidth', hclassical', rfl⟩

/-- **Cancellation.** If the adjoint of an unmarked gate comes next on all its
wires and is not marked either, both can be marked. Without them the circuit
takes every pattern to the same output with the same phase. -/
theorem compact_cancelled (hc : c.Reachable) (ha : c.gateAt? a = some g)
    (hb : c.gateAt? b = some h) (hmarked : c.isMarked a = false) (hmarked' : c.isMarked b = false)
    (hadjoint : g.isAdjointOf h = true) (hnext : ∀ w ∈ g.operands, c.successor? a w = some b)
    (hexact : ∀ k ∈ c.liveGates, k.isExact = true) :
    ∃ d d', setMarked a true c = .ok false d ∧ setMarked b true d = .ok false d' ∧
      ∀ x y, c.simulate x = .ok y → d'.compact.simulate x = .ok y ∧
        ∃ phase, c.phaseOf x = .ok phase ∧ d'.compact.phaseOf x = .ok phase := by
  have hsound := hc.sound
  have hg : c.Admits g := hsound.admitted a g (gateAt?_eq_some_iff.mp ha)
  have hb' := gateAt?_eq_some_iff.mp hb
  obtain ⟨n, hn, hlive⟩ := exists_node_of_unmarked ha hmarked
  obtain ⟨n', hn', hlive'⟩ := exists_node_of_unmarked hb hmarked'
  have hab : a < b := by
    obtain ⟨w, hw⟩ := List.exists_mem_of_ne_nil _ (Gate.operands_ne_nil hg.valid)
    exact hsound.lt_of_successor? hb' (hnext w hw)
  obtain ⟨d, d', before, between, after, hd, hd', hcount, hgates, hgates', hbetween⟩ :=
    exists_setMarked_two hsound.toIndexed hn hn' hab hlive hlive'
  have hdisjoint : ∀ k ∈ between, List.Disjoint k.indices g.indices := by
    intro k hk
    obtain ⟨m, ham, hmb, hm⟩ := hbetween k hk
    exact hsound.disjoint_of_between hg hb' hnext hm ham hmb
  refine ⟨d, d', hd, hd', fun x y => outcome_of_foldl_advance_eq
    (fun k hk => (hsound.admits_of_mem_liveGates hk).valid) hexact
    ((compact_wireCount d').trans hcount) ?_ fun hclassical => ?_⟩
  · rw [compact_liveGates, hgates, hgates']
    intro k hk
    simp only [List.mem_append, List.mem_cons] at hk ⊢
    tauto
  · have hmem : g ∈ c.liveGates := by simp [hgates]
    have hmem' : h ∈ c.liveGates := by simp [hgates]
    have hundo := Gate.advance_advance hg.valid hg.nodup_indices hadjoint (hclassical g hmem)
      (hexact g hmem) (hexact h hmem')
    rw [compact_liveGates, hgates, hgates']
    exact (foldl_advance_cancel hundo hdisjoint _).symm

/-- A flip of two qubits under a complemented control is undone, with its
targets in another order, after a gate on a fourth qubit. -/
def flippedTwice : Circuit := ofHistory [.addWire .qubit, .addWire .qubit, .addWire .qubit,
  .addWire .qubit, .append (.mcx [(Wire.qubit 0).complement] [.qubit 1, .qubit 2]),
  .append ⟨.pauli .y, [], [.qubit 3]⟩,
  .append (.mcx [(Wire.qubit 0).complement] [.qubit 2, .qubit 1]),
  .append (.cx (.qubit 2) (.qubit 3))]

theorem compact_cancelled_flippedTwice :
    flippedTwice.Reachable ∧
      flippedTwice.gateAt? 8 = some (.mcx [(Wire.qubit 0).complement] [.qubit 1, .qubit 2]) ∧
      flippedTwice.gateAt? 10 = some (.mcx [(Wire.qubit 0).complement] [.qubit 2, .qubit 1]) ∧
      flippedTwice.simulate 4 = .ok 4 ∧
      ∃ d d', setMarked 8 true flippedTwice = .ok false d ∧
        setMarked 10 true d = .ok false d' ∧ d'.compact.simulate 4 = .ok 4 ∧
        d'.compact.phaseOf 4 = .ok (.turn 2) := by
  have hc : flippedTwice.Reachable := ⟨_, rfl⟩
  have hsimulate : flippedTwice.simulate 4 = .ok 4 := rfl
  have hphase : flippedTwice.phaseOf 4 = .ok (.turn 2) := rfl
  obtain ⟨d, d', hd, hd', hsame⟩ := compact_cancelled (a := 8) (b := 10) hc rfl rfl rfl rfl
    (by decide) (by decide) (by decide)
  obtain ⟨houtput, phase, hbefore, hafter⟩ := hsame 4 4 hsimulate
  rw [hphase] at hbefore
  cases hbefore
  exact ⟨hc, rfl, rfl, hsimulate, d, d', hd, hd', houtput, hafter⟩

end Circuit

end CircuitSynthesis
