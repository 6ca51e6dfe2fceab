import CircuitSynthesis.Proofs.Circuit.Append
import CircuitSynthesis.Synthesis.Placement

/-!
# Placements and the gates they give rise to

A placement passes its check exactly when it lists the right number of
distinct qubits of the circuit (`Placement.check_eq_ok_iff`). Gates on
different qubits of such a placement are admitted by the circuit, so an
engine that emits them cannot fail. The qubits of a fresh circuit are such a
placement of themselves.
-/

namespace CircuitSynthesis

theorem Wire.sameWire_comm (v w : Wire) : v.sameWire w = w.sameWire v := by
  rw [Bool.eq_iff_iff, sameWire_iff, sameWire_iff]
  exact ⟨fun h => ⟨h.1.symm, h.2.symm⟩, fun h => ⟨h.1.symm, h.2.symm⟩⟩

@[simp] theorem Wire.isComplemented_qubit (i : Nat) : (qubit i).isComplemented = false := rfl

@[simp] theorem Wire.index_qubit (i : Nat) : (qubit i).index = i := rfl

@[simp] theorem Wire.positive_qubit (i : Nat) : (qubit i).positive = qubit i := rfl

theorem admitQubits_of_le {limit width : Nat} (h : width ≤ limit) :
    admitQubits limit width = .ok () := if_pos h

theorem admitQubits_eq_ok_iff {limit width : Nat} :
    admitQubits limit width = .ok () ↔ width ≤ limit := by
  refine ⟨fun h => ?_, admitQubits_of_le⟩
  unfold admitQubits at h
  split at h
  · assumption
  · cases h

/-! ## Accepted placements -/

namespace Placement

/-- The placement lists `count` distinct qubits of the circuit. -/
structure Fits (c : Circuit) (p : Placement) (count : Nat) : Prop where
  length_eq : p.length = count
  isQubit : ∀ w ∈ p, w.kind = .qubit
  onWires : ∀ w ∈ p, (c.track? w).isSome = true
  distinct : p.Pairwise fun v w => v.sameWire w = false

/-- A wire is found as a qubit exactly when it is a wire of the circuit and
its own kind says so. -/
theorem any_isQubit_track?_iff {c : Circuit} {w : Wire} :
    (c.track? w).any (·.declared.wire.isQubit) = true ↔
      (c.track? w).isSome = true ∧ w.kind = .qubit := by
  unfold Circuit.track?
  cases c.tracks[w.index]? with
  | none => simp
  | some t =>
    rw [Option.filter_some]
    by_cases hkind : (t.declared.wire.kind == w.kind) = true
    · rw [if_pos hkind]
      have heq : t.declared.wire.kind = w.kind := by simpa using hkind
      simp [Wire.isQubit, heq]
    · rw [if_neg hkind]
      simp

/-- The scan finds no fault exactly in lists of distinct qubits of the circuit
that were not seen before. -/
theorem fault?_eq_none_iff {c : Circuit} {seen p : List Wire} :
    fault? c seen p = none ↔
      (∀ w ∈ p, (c.track? w).isSome = true ∧ w.kind = .qubit) ∧
      p.Pairwise (fun v w => v.sameWire w = false) ∧
      ∀ w ∈ p, ∀ v ∈ seen, v.sameWire w = false := by
  induction p generalizing seen with
  | nil => simp [fault?]
  | cons w rest ih =>
    rw [fault?]
    by_cases hqubit : (c.track? w).any (·.declared.wire.isQubit) = true
    · by_cases hseen : seen.any (·.sameWire w) = true
      · rw [if_neg (by simp [hqubit]), if_pos hseen]
        obtain ⟨v, hv, hsame⟩ := List.any_eq_true.mp hseen
        refine ⟨by simp, fun h => ?_⟩
        rw [h.2.2 w List.mem_cons_self v hv] at hsame
        exact absurd hsame (by simp)
      · rw [if_neg (by simp [hqubit]), if_neg hseen, ih]
        have hfresh : ∀ v ∈ seen, v.sameWire w = false := by simpa using hseen
        have hw := any_isQubit_track?_iff.mp hqubit
        constructor
        · rintro ⟨hrest, hpair, hnew⟩
          refine ⟨List.forall_mem_cons.mpr ⟨hw, hrest⟩, List.pairwise_cons.mpr
            ⟨fun v hv => hnew v hv w List.mem_cons_self, hpair⟩, ?_⟩
          intro u hu v hv
          rcases List.mem_cons.mp hu with rfl | hu
          · exact hfresh v hv
          · exact hnew u hu v (List.mem_cons_of_mem _ hv)
        · rintro ⟨hall, hpair, hnew⟩
          obtain ⟨hfirst, hrest⟩ := List.pairwise_cons.mp hpair
          refine ⟨(List.forall_mem_cons.mp hall).2, hrest, ?_⟩
          intro u hu v hv
          rcases List.mem_cons.mp hv with rfl | hv
          · exact hfirst u hu
          · exact hnew u (List.mem_cons_of_mem _ hu) v hv
    · rw [if_pos (by simpa using hqubit)]
      refine ⟨by simp, fun h => ?_⟩
      exact absurd (any_isQubit_track?_iff.mpr (h.1 w List.mem_cons_self)) hqubit

theorem check_eq_ok_iff {c : Circuit} {p : Placement} {count : Nat} :
    p.check c count = .ok () ↔ p.Fits c count := by
  unfold check
  by_cases hlength : p.length = count
  · rw [if_neg (by simpa using hlength)]
    cases hfault : fault? c [] p with
    | none =>
      obtain ⟨hall, hpair, -⟩ := fault?_eq_none_iff.mp hfault
      exact ⟨fun _ => ⟨hlength, fun w hw => (hall w hw).2, fun w hw => (hall w hw).1, hpair⟩,
        fun _ => rfl⟩
    | some e =>
      refine ⟨fun h => absurd h (by simp), fun h => ?_⟩
      have hnone : fault? c [] p = none := fault?_eq_none_iff.mpr
        ⟨fun w hw => ⟨h.onWires w hw, h.isQubit w hw⟩, h.distinct, by simp⟩
      rw [hnone] at hfault
      cases hfault
  · rw [if_pos hlength]
    exact ⟨fun h => absurd h (by simp), fun h => absurd h.length_eq hlength⟩

theorem Fits.congr {c d : Circuit} (h : c.declarations = d.declarations) {p : Placement}
    {count : Nat} (hp : p.Fits c count) : p.Fits d count :=
  ⟨hp.length_eq, hp.isQubit,
    fun w hw => (Circuit.isSome_track?_congr h w).symm.trans (hp.onWires w hw), hp.distinct⟩

theorem wire_eq_getElem {p : Placement} {i : Nat} (h : i < p.length) : p.wire i = p[i] := by
  simp [wire, h]

theorem wire_mem {p : Placement} {i : Nat} (h : i < p.length) : p.wire i ∈ p := by
  rw [wire_eq_getElem h]
  exact List.getElem_mem h

variable {c : Circuit} {p : Placement} {n : Nat}

/-- Different qubits of a problem stand on different wires. -/
theorem Fits.sameWire_wire (h : p.Fits c n) {i j : Nat} (hi : i < n) (hj : j < n) (hij : i ≠ j) :
    (p.wire i).sameWire (p.wire j) = false := by
  have hpair := List.pairwise_iff_getElem.mp h.distinct
  rw [← h.length_eq] at hi hj
  rw [wire_eq_getElem hi, wire_eq_getElem hj]
  rcases Nat.lt_or_gt_of_ne hij with hlt | hgt
  · exact hpair i j hi hj hlt
  · rw [Wire.sameWire_comm]
    exact hpair j i hj hi hgt

theorem Fits.admits_cx (h : p.Fits c n) {i j : Nat} (hi : i < n) (hj : j < n) (hij : i ≠ j) :
    c.Admits (.cx (p.wire i) (p.wire j)) := by
  have hlen := h.length_eq
  have hmi : p.wire i ∈ p := wire_mem (by omega)
  have hmj : p.wire j ∈ p := wire_mem (by omega)
  refine ⟨(Gate.validate_eq_ok_iff _).mpr ⟨rfl, ?_, ?_⟩, ?_⟩
  · intro k hk
    change k < 2 at hk
    match k, hk with
    | 0, _ => exact h.isQubit _ hmi
    | 1, _ => exact h.isQubit _ hmj
  · simp [Gate.operands, Gate.cx, h.sameWire_wire hi hj hij]
  · intro w hw
    have hw : w = p.wire i ∨ w = p.wire j := by simpa [Gate.operands, Gate.cx] using hw
    rcases hw with rfl | rfl
    · exact h.onWires _ hmi
    · exact h.onWires _ hmj

theorem Fits.admits_rotationZ (h : p.Fits c n) {i : Nat} (hi : i < n) (angle : Angle) :
    c.Admits (.rotationZ angle (p.wire i)) := by
  have hmem : p.wire i ∈ p := wire_mem (by rw [h.length_eq]; exact hi)
  refine ⟨(Gate.validate_eq_ok_iff _).mpr ⟨rfl, ?_, ?_⟩, ?_⟩
  · intro k hk
    change k < 1 at hk
    obtain rfl : k = 0 := by omega
    exact h.isQubit _ hmem
  · simp [Gate.operands, Gate.rotationZ]
  · intro w hw
    have hw : w = p.wire i := by simpa [Gate.operands, Gate.rotationZ] using hw
    rw [hw]
    exact h.onWires _ hmem

end Placement

/-! ## Fresh circuits -/

namespace Circuit

theorem addWire_declarations (c : Circuit) (kind : Wire.Kind) (label : Option String) :
    (c.addWire kind label).1.declarations =
      c.declarations ++ [⟨.ofKind kind c.wireCount, label⟩] := by
  simp [addWire, declarations, wireCount]

theorem addWire_liveGates (c : Circuit) (kind : Wire.Kind) (label : Option String) :
    (c.addWire kind label).1.liveGates = c.liveGates := by
  refine List.filterMap_congr fun id hid => liveGateAt?_congr (fun id hid => ?_) hid
  simp only [addWire, Array.getElem?_push, Array.size_push]
  rw [if_neg (by omega), if_neg (by omega)]

theorem ofQubits_declarations (n : Nat) :
    (ofQubits n).declarations = (List.range n).map fun i => ⟨.qubit i, none⟩ := by
  induction n with
  | zero => rfl
  | succ n ih =>
    have hcount : (ofQubits n).wireCount = n := by
      rw [wireCount_eq_length_declarations, ih]
      simp
    rw [ofQubits, addWire_declarations, ih, hcount, List.range_succ, List.map_append]
    rfl

@[simp] theorem ofQubits_wireCount (n : Nat) : (ofQubits n).wireCount = n := by
  rw [wireCount_eq_length_declarations, ofQubits_declarations]
  simp

@[simp] theorem ofQubits_liveGates (n : Nat) : (ofQubits n).liveGates = [] := by
  induction n with
  | zero => rfl
  | succ n ih => rw [ofQubits, addWire_liveGates, ih]

@[simp] theorem ofQubits_qubitCount (n : Nat) : (ofQubits n).qubitCount = n := by
  induction n with
  | zero => rfl
  | succ n ih => exact congrArg (· + 1) ih

@[simp] theorem ofQubits_rewiring (n : Nat) : (ofQubits n).rewiring = List.range n := by
  induction n with
  | zero => rfl
  | succ n ih =>
    have hindex : (ofQubits n).tracks.size = n := ofQubits_wireCount n
    rw [ofQubits, List.range_succ, ← ih]
    show (ofQubits n).rewiring ++ [(ofQubits n).tracks.size] = _
    rw [hindex]

/-- The qubits of a circuit that was only given qubits are numbered in order. -/
@[simp] theorem ofQubits_qubits (n : Nat) :
    (ofQubits n).qubits = (List.range n).map Wire.qubit := by
  rw [qubits, wires_eq_map_declarations, ofQubits_declarations, List.map_map,
    List.filter_eq_self.mpr]
  · rfl
  · intro w hw
    obtain ⟨i, -, rfl⟩ := List.mem_map.mp hw
    rfl

theorem isSome_track?_ofQubits {n i : Nat} (h : i < n) :
    ((ofQubits n).track? (.qubit i)).isSome = true := by
  have hmap := map_declared_track? (ofQubits n) (.qubit i)
  have hdecl : (ofQubits n).declarations[i]? = some ⟨.qubit i, none⟩ := by
    simp [ofQubits_declarations, h]
  change _ = ((ofQubits n).declarations[i]?).filter _ at hmap
  rw [hdecl] at hmap
  have := congrArg Option.isSome hmap
  simpa [Wire.qubit, Wire.ofKind] using this

/-- The qubits of a fresh circuit are a placement on it. -/
theorem fits_ofQubits (n : Nat) : Placement.Fits (ofQubits n) (ofQubits n).qubits n := by
  rw [ofQubits_qubits]
  refine ⟨by simp, ?_, ?_, ?_⟩
  · intro w hw
    obtain ⟨i, -, rfl⟩ := List.mem_map.mp hw
    rfl
  · intro w hw
    obtain ⟨i, hi, rfl⟩ := List.mem_map.mp hw
    exact isSome_track?_ofQubits (List.mem_range.mp hi)
  · rw [List.pairwise_map]
    refine List.Pairwise.imp ?_ List.pairwise_lt_range
    intro i j hij
    simp [Wire.sameWire, Wire.qubit, Wire.ofKind, Nat.ne_of_lt hij]

/-- On a fresh circuit, qubit `i` of a problem is wire `i`. -/
theorem wire_ofQubits (n i : Nat) :
    Placement.wire ((List.range n).map Wire.qubit) i = .qubit i := by
  unfold Placement.wire
  by_cases h : i < n
  · simp [h]
  · simp [List.getD_eq_getElem?_getD, h]

end Circuit

end CircuitSynthesis
