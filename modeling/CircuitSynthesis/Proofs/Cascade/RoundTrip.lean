import CircuitSynthesis.Proofs.Cascade.Reduction
import CircuitSynthesis.Proofs.Circuit.Placement
import CircuitSynthesis.Proofs.Edit
import CircuitSynthesis.Simulation

/-!
# Cascades realize their tables

The gates of a reduction are admitted by every circuit that accepts the
placement, and on the qubits of a fresh circuit each of them acts on bit
patterns as the Toffoli gate it stands for. Together with the reduction this
gives the round trip from a truth table to a circuit and back.
-/

namespace CircuitSynthesis

/-! ## Toffoli gates on a placement -/

namespace Placement

/-- The selected wires, by position. -/
theorem select_eq_map (p : Placement) (s : Nat) :
    p.select s = ((List.range p.length).filter s.testBit).map fun i => (p.wire i).positive := by
  have hzip : p.zipIdx = (List.range p.length).map fun i => (p.wire i, i) := by
    apply List.ext_getElem
    · simp
    · intro i h _
      have hi : i < p.length := by simpa using h
      simp [wire_eq_getElem hi]
  unfold select
  rw [hzip, List.filter_map, List.map_map]
  rfl

theorem select_two_pow {p : Placement} {i : Nat} (h : i < p.length) :
    p.select (2 ^ i) = [(p.wire i).positive] := by
  have hfilter : (List.range p.length).filter (2 ^ i).testBit = [i] := by
    have hpred : (2 ^ i).testBit = (· == i) := by
      funext j
      rw [Nat.testBit_two_pow, Bool.eq_iff_iff, decide_eq_true_iff, beq_iff_eq]
      exact eq_comm
    rw [hpred, List.filter_beq, List.count_range, if_pos h]
    rfl
  rw [select_eq_map, hfilter]
  rfl

theorem mem_select {p : Placement} {s : Nat} {w : Wire} :
    w ∈ p.select s ↔ ∃ i < p.length, s.testBit i = true ∧ w = (p.wire i).positive := by
  rw [select_eq_map]
  simp only [List.mem_map, List.mem_filter, List.mem_range]
  exact ⟨fun ⟨i, ⟨hi, hs⟩, he⟩ => ⟨i, hi, hs, he.symm⟩,
    fun ⟨i, hi, hs, he⟩ => ⟨i, ⟨hi, hs⟩, he.symm⟩⟩

variable {c : Circuit} {p : Placement} {n : Nat}

/-- A circuit admits every Toffoli gate on a placement that it accepts. -/
theorem Fits.admits_toffoli (h : p.Fits c n) {g : Toffoli} (hg : g.WellFormed n) :
    c.Admits (g.toGate p) := by
  have hlen := h.length_eq
  have htarget : p.select (2 ^ g.target) = [(p.wire g.target).positive] :=
    select_two_pow (by rw [hlen]; exact hg.target_lt)
  have hoperand : ∀ w ∈ (g.toGate p).operands, ∃ i < n, w = (p.wire i).positive := by
    intro w hw
    rcases List.mem_append.mp hw with hw | hw
    · obtain ⟨i, hi, -, rfl⟩ := mem_select.mp hw
      exact ⟨i, by omega, rfl⟩
    · obtain ⟨i, hi, -, rfl⟩ := mem_select.mp hw
      exact ⟨i, by omega, rfl⟩
  refine ⟨(Gate.validate_eq_ok_iff _).mpr ⟨?_, ?_, ?_⟩, ?_⟩
  · show decide (1 ≤ (p.select (2 ^ g.target)).length) = true
    rw [htarget]
    rfl
  · intro k hk
    obtain ⟨i, hi, he⟩ := hoperand _ (List.getElem_mem hk)
    rw [he]
    exact h.isQubit (p.wire i) (wire_mem (by omega))
  · show (p.select g.controls ++ p.select (2 ^ g.target)).Pairwise _
    rw [htarget, List.pairwise_append]
    refine ⟨?_, List.pairwise_singleton _ _, ?_⟩
    · rw [select_eq_map, List.pairwise_map]
      refine List.Pairwise.imp_of_mem ?_ (List.pairwise_lt_range.filter _)
      intro i j hi hj hij
      have hi' := List.mem_range.mp (List.mem_filter.mp hi).1
      have hj' := List.mem_range.mp (List.mem_filter.mp hj).1
      exact h.sameWire_wire (by omega) (by omega) (by omega)
    · intro v hv w hw
      obtain ⟨i, hi, hbit, rfl⟩ := mem_select.mp hv
      rw [List.mem_singleton.mp hw]
      refine h.sameWire_wire (by omega) hg.target_lt ?_
      rintro rfl
      rw [hg.free] at hbit
      cases hbit
  · intro w hw
    obtain ⟨i, hi, rfl⟩ := hoperand w hw
    exact h.onWires (p.wire i) (wire_mem (by omega))

end Placement

/-! ## Simulation -/

namespace Toffoli

/-- On the qubits of a fresh circuit a gate is simulated by its action. -/
theorem onPattern_toGate {n : Nat} {g : Toffoli} (hg : g.WellFormed n) (x : Nat) :
    Gate.onPattern x (g.toGate ((List.range n).map Wire.qubit)) = .ok (g.act x) := by
  have hactive : (g.toGate ((List.range n).map Wire.qubit)).isActive x =
      Bits.covers x g.controls := by
    rw [Bool.eq_iff_iff, Bits.covers_iff]
    show ((Placement.select _ _).all _ = true) ↔ _
    rw [List.all_eq_true]
    constructor
    · intro h i hi
      have hmem : (Wire.qubit i).positive ∈
          Placement.select ((List.range n).map Wire.qubit) g.controls :=
        Placement.mem_select.mpr ⟨i, by simpa using Bits.lt_of_testBit hg.controls_lt hi, hi,
          by rw [Circuit.wire_ofQubits]⟩
      simpa [Gate.valueOf] using h _ hmem
    · intro h w hw
      obtain ⟨i, -, hi, rfl⟩ := Placement.mem_select.mp hw
      rw [Circuit.wire_ofQubits]
      simpa [Gate.valueOf] using h i hi
  have htargets : (g.toGate ((List.range n).map Wire.qubit)).targets = [.qubit g.target] := by
    show Placement.select _ _ = _
    rw [Placement.select_two_pow (by simpa using hg.target_lt), Circuit.wire_ofQubits]
    rfl
  show Except.ok (if (g.toGate _).isActive x then (g.toGate _).flipAll x else x) = _
  unfold Gate.flipAll
  rw [hactive, htargets]
  rfl

theorem foldlM_onPattern_toGate {n : Nat} {gates : List Toffoli}
    (hgates : ∀ g ∈ gates, g.WellFormed n) (x : Nat) :
    (gates.map (·.toGate ((List.range n).map Wire.qubit))).foldlM Gate.onPattern x =
      .ok (run gates x) := by
  induction gates generalizing x with
  | nil => rfl
  | cons g gates ih =>
    rw [List.map_cons, List.foldlM_cons, onPattern_toGate (hgates g List.mem_cons_self), run_cons]
    exact ih (fun g' hg' => hgates g' (List.mem_cons_of_mem _ hg')) (g.act x)

/-- Gates on the qubits of a fresh circuit act on a pattern one after another. -/
theorem simulate_placed {n : Nat} (hn : n ≤ Bits.wordSize) {gates : List Toffoli}
    (hgates : ∀ g ∈ gates, g.WellFormed n) (x : Nat) :
    ((gates.map (·.toGate (Circuit.ofQubits n).qubits)).foldl Circuit.place
      (Circuit.ofQubits n)).simulate x = .ok (run gates x) := by
  unfold Circuit.simulate
  rw [Circuit.foldl_place_wireCount, Circuit.ofQubits_wireCount, admitQubits_of_le hn,
    Circuit.foldl_place_liveGates, Circuit.ofQubits_liveGates, Circuit.ofQubits_qubits,
    List.nil_append]
  exact foldlM_onPattern_toGate hgates x

end Toffoli

/-! ## The round trip -/

namespace Cascade

variable {c : Circuit} {p : Placement} {f : ReversibleFunction} {direction : Direction}

theorem onCircuit_of_ok {w : Workspace} {edit : Edit Unit} {d : Circuit}
    (h : edit w.circuit = .ok () d) :
    Workspace.onCircuit edit w = .ok () { w with circuit := d } := by
  unfold Workspace.onCircuit
  rw [h]

/-- On an accepted placement a cascade is appended gate by gate, and the table
that is left is the one the reduction ends with. -/
theorem edit_eq_ok (hp : p.Fits c f.width) (direction : Direction) :
    ∃ events, edit p f.width direction ⟨c, f.table⟩ = .ok events
      ⟨((reduce direction f.table).gates.map (·.toGate p)).foldl Circuit.place c,
        (reduce direction f.table).table⟩ := by
  have hreduces := reduces_reduce f.isPermutation direction
  have hadmits : ∀ g ∈ (reduce direction f.table).gates.map (·.toGate p), c.Admits g := by
    intro g hg
    obtain ⟨t, ht, rfl⟩ := List.mem_map.mp hg
    exact hp.admits_toffoli (hreduces.wellFormed_gates t ht)
  have hemit := onCircuit_of_ok (w := ⟨c, (reduce direction f.table).table⟩)
    (Edit.emitAll_of_admits hadmits)
  exact ⟨_, (lift_bind_ok (Placement.check_eq_ok_iff.mpr hp)).trans (bind_ok hemit)⟩

/-- Without an accepted placement nothing happens. -/
theorem edit_refuses (direction : Direction) (hp : ¬p.Fits c f.width) :
    Refuses (edit p f.width direction) ⟨c, f.table⟩ :=
  refuses_get_bind (refuses_lift_bind fun _ hcheck =>
    absurd (Placement.check_eq_ok_iff.mp hcheck) hp)

theorem appendTo_eq_ok (hp : p.Fits c f.width) (direction : Direction) :
    ∃ events, appendTo c p f direction = .ok
      { circuit := ((reduce direction f.table).gates.map (·.toGate p)).foldl Circuit.place c
        table := (reduce direction f.table).table
        events := events } := by
  obtain ⟨events, hedit⟩ := edit_eq_ok hp direction
  exact ⟨events, by rw [appendTo, hedit]⟩

/-- A cascade only succeeds on an accepted placement. -/
theorem fits_of_appendTo {r : Result} (h : appendTo c p f direction = .ok r) :
    p.Fits c f.width := by
  refine Classical.byContradiction fun hp => ?_
  obtain ⟨e, hedit⟩ := edit_refuses direction hp
  rw [appendTo, hedit] at h
  cases h

/-- **Round trip.** For every reversible function and every direction, synthesis
gives a circuit on as many qubits as the function has bits, which maps each
pattern to its image. Appending succeeds on every accepted placement, and it
leaves the identity of the table. -/
theorem synthesize_realizes (f : ReversibleFunction) (direction : Direction) :
    (∃ s, synthesize f direction = .ok s ∧
      s.circuit.qubitCount = f.width ∧ s.circuit.wireCount = f.width ∧
      ∀ x < 2 ^ f.width, ∃ y, f.image? x = some y ∧ s.circuit.simulate x = .ok y) ∧
    ∀ (c : Circuit) (p : Placement),
      (p.check c f.width = .ok () → ∃ r, appendTo c p f direction = .ok r) ∧
      ∀ r, appendTo c p f direction = .ok r →
        r.table = ReversibleFunction.identityTable f.size := by
  have hreduces := reduces_reduce f.isPermutation direction
  constructor
  · obtain ⟨events, happend⟩ := appendTo_eq_ok (Circuit.fits_ofQubits f.width) direction
    have hsynthesize : synthesize f direction = .ok
        ⟨((reduce direction f.table).gates.map (·.toGate (Circuit.ofQubits f.width).qubits)).foldl
          Circuit.place (Circuit.ofQubits f.width), events⟩ := by
      unfold synthesize
      simp only [happend]
      rfl
    refine ⟨_, hsynthesize, by simp, by simp, ?_⟩
    intro x hx
    have hsize : x < f.table.size := by rw [f.size_table]; exact hx
    refine ⟨f.table[x], Array.getElem?_eq_getElem hsize, ?_⟩
    have hwidth : f.width ≤ Bits.wordSize := Nat.le_trans f.width_le (by decide)
    rw [Toffoli.simulate_placed hwidth hreduces.wellFormed_gates, hreduces.run_gates hx]
    simp [Array.getD, hsize]
  · intro c p
    constructor
    · intro hcheck
      obtain ⟨events, happend⟩ := appendTo_eq_ok (Placement.check_eq_ok_iff.mp hcheck) direction
      exact ⟨_, happend⟩
    · intro r h
      obtain ⟨events, happend⟩ := appendTo_eq_ok (fits_of_appendTo h) direction
      rw [happend] at h
      cases h
      rw [ReversibleFunction.size, f.size_table]
      exact hreduces.table_eq

/-- Counting up on two bits, from three back to zero. -/
def successor : ReversibleFunction where
  width := 2
  table := #[1, 2, 3, 0]
  width_le := by decide
  isPermutation := RangePermutation.isRangePermutation_iff.mpr (by decide)

theorem synthesize_realizes_successor :
    (∃ s, synthesize successor .bidirectional = .ok s ∧
      3 < 2 ^ successor.width ∧ s.circuit.simulate 3 = .ok 0) ∧
    ∃ r, appendTo (Circuit.ofQubits 2) (Circuit.ofQubits 2).qubits successor .bidirectional =
      .ok r ∧ r.table = ReversibleFunction.identityTable 4 := by
  obtain ⟨⟨s, hs, -, -, hsimulate⟩, hinto⟩ := synthesize_realizes successor .bidirectional
  constructor
  · obtain ⟨y, himage, hy⟩ := hsimulate 3 (by decide)
    cases himage
    exact ⟨s, hs, by decide, hy⟩
  · obtain ⟨hok, htable⟩ := hinto (Circuit.ofQubits 2) (Circuit.ofQubits 2).qubits
    obtain ⟨r, happend⟩ := hok (Placement.check_eq_ok_iff.mpr (Circuit.fits_ofQubits 2))
    exact ⟨r, happend, htable r happend⟩

end Cascade

end CircuitSynthesis
