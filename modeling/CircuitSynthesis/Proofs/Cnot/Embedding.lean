import CircuitSynthesis.Proofs.Cnot.Recipe
import CircuitSynthesis.Simulation

/-!
# CNOTs on some wires of a larger circuit

A matrix is embedded in the identity on all wires by moving its rows and
columns to the wires of a placement. What it makes of the parities on the
wires is found on the placed wires alone (`onWires_mul`). So is what CNOTs on
the placed wires do: there they act as on qubits of their own, and they leave
all other wires alone.
-/

namespace CircuitSynthesis

/-! ## Embedding a matrix -/

/-- The columns `j` in `s`, moved to the wires that stand for them. -/
def Placement.spread (p : Placement) (n s : Nat) : Nat :=
  Bits.ofPredicate n fun v => p.zipIdx.any fun (w, j) => w.index == v && s.testBit j

/-- The matrix on `n` wires that is `m` on the wires of the placement and the
identity on all others. -/
def BinaryMatrix.onWires (m : BinaryMatrix) (p : Placement) (n : Nat) : BinaryMatrix :=
  ⟨(List.range n).map fun v =>
    match p.findIdx? (·.index == v) with
    | some i => p.spread n (m.row i)
    | none => 2 ^ v⟩

/-- What the wires of the placement carry. -/
def Placement.gather (p : Placement) (rows : List Nat) : List Nat :=
  p.map fun w => rows.getD w.index 0

namespace Placement

variable {c : Circuit} {p : Placement} {n k : Nat}

/-- Entry `i` of the gathered rows is that of the wire that stands for `i`. -/
theorem Fits.getD_gather (h : p.Fits c k) (rows : List Nat) {i : Nat} (hi : i < k) :
    (p.gather rows).getD i 0 = rows.getD (p.wire i).index 0 := by
  have hip : i < p.length := by rw [h.length_eq]; exact hi
  simp [gather, hip, wire_eq_getElem hip]

theorem Fits.length_gather (h : p.Fits c k) (rows : List Nat) : (p.gather rows).length = k := by
  rw [gather, List.length_map, h.length_eq]

/-- Units of different wires do not cancel. -/
theorem testBit_combination_units {ws : List Wire} (h : (ws.map Wire.index).Nodup) (s v : Nat) :
    (combination (ws.map fun w => 2 ^ w.index) s).testBit v =
      ws.zipIdx.any fun (w, j) => w.index == v && s.testBit j := by
  induction ws generalizing s with
  | nil => simp [combination]
  | cons w ws ih =>
    obtain ⟨hfresh, hrest⟩ := List.nodup_cons.mp h
    have hshift : (ws.zipIdx.any fun (w, j) => w.index == v && (s >>> 1).testBit j) =
        (ws.zipIdx 1).any fun (w, j) => w.index == v && s.testBit j := by
      rw [List.zipIdx_succ, List.any_map]
      simp [Function.comp_def, Nat.testBit_shiftRight, Nat.add_comm 1]
    have hhead : (if s.testBit 0 then 2 ^ w.index else 0).testBit v =
        (w.index == v && s.testBit 0) := by
      cases s.testBit 0
      · simp
      · simp [Nat.testBit_two_pow, beq_eq_decide]
    rw [List.map_cons, combination, Nat.testBit_xor, ih hrest, hshift, hhead, List.zipIdx_cons,
      List.any_cons, Nat.zero_add]
    by_cases hv : w.index = v
    · -- No other wire has this index.
      have hnone : ((ws.zipIdx 1).any fun (w, j) => w.index == v && s.testBit j) = false := by
        rw [List.any_eq_false]
        rintro ⟨u, j⟩ hu
        have hmem : u ∈ ws := (List.mem_zipIdx hu).2.2 ▸ List.getElem_mem _
        have hne : u.index ≠ v := fun he => hfresh (hv ▸ he ▸ List.mem_map_of_mem hmem)
        simp [hne]
      rw [hnone, Bool.xor_false, Bool.or_false]
    · have hfalse : (w.index == v) = false := by simpa using hv
      simp only [hfalse, Bool.false_and, Bool.false_xor, Bool.false_or]

theorem Fits.spread_eq_combination (h : p.Fits c k) (s : Nat) :
    p.spread c.wireCount s = combination (p.map fun w => 2 ^ w.index) s := by
  apply Nat.eq_of_testBit_eq
  intro v
  rw [spread, Bits.testBit_ofPredicate, testBit_combination_units h.nodup_indices]
  by_cases hv : v < c.wireCount
  · simp [hv]
  · have hnone : (p.zipIdx.any fun (w, j) => w.index == v && s.testBit j) = false := by
      rw [List.any_eq_false]
      rintro ⟨w, j⟩ hw
      have hmem : w ∈ p := (List.mem_zipIdx hw).2.2 ▸ List.getElem_mem _
      have hlt := h.index_lt hmem
      have hne : w.index ≠ v := by omega
      simp [hne]
    rw [hnone, Bool.and_false]

/-- A spread row combines what the placed wires carry. -/
theorem Fits.combination_spread (h : p.Fits c k) (rows : List Nat) (s : Nat) :
    combination rows (p.spread c.wireCount s) = combination (p.gather rows) s := by
  rw [h.spread_eq_combination, combination_combination, List.map_map]
  refine congrArg (combination · s) (List.map_congr_left fun w _ => ?_)
  exact combination_two_pow rows w.index

/-- Different qubits of a problem stand on wires of different indices. -/
theorem Fits.index_wire_inj (h : p.Fits c k) {i j : Nat} (hi : i < k) (hj : j < k)
    (heq : (p.wire i).index = (p.wire j).index) : i = j := by
  by_contra hij
  have hlength := h.length_eq
  have hkind : (p.wire i).kind = (p.wire j).kind := by
    rw [h.isQubit _ (wire_mem (by omega)), h.isQubit _ (wire_mem (by omega))]
  have hdiffer := h.sameWire_wire hi hj hij
  rw [Wire.sameWire_iff.mpr ⟨heq, hkind⟩] at hdiffer
  cases hdiffer

theorem Fits.findIdx?_index (h : p.Fits c k) {i : Nat} (hi : i < k) :
    p.findIdx? (·.index == (p.wire i).index) = some i := by
  have hlength := h.length_eq
  have hip : i < p.length := by omega
  rw [List.findIdx?_eq_some_iff_getElem]
  refine ⟨hip, by simp [wire_eq_getElem hip], fun j hj heq => ?_⟩
  have hjp : j < p.length := by omega
  rw [← wire_eq_getElem hjp, beq_iff_eq] at heq
  have := h.index_wire_inj (by omega) hi heq
  omega

theorem findIdx?_index_eq_none {v : Nat} (hv : v ∉ p.map Wire.index) :
    p.findIdx? (·.index == v) = none := by
  rw [List.findIdx?_eq_none_iff]
  intro w hw
  have hne : w.index ≠ v := fun he => hv (he ▸ List.mem_map_of_mem hw)
  simpa using hne

end Placement

namespace BinaryMatrix

variable {c : Circuit} {p : Placement} {m : BinaryMatrix}

/-- What an embedded matrix makes of given rows: combinations of the rows on
the placed wires, and the old row everywhere else. -/
theorem onWires_mul {S : BinaryMatrix} (h : p.Fits c m.size) (hS : S.size = c.wireCount) :
    ∃ P, (m.onWires p c.wireCount).mul S = .ok P ∧ P.size = c.wireCount ∧
      (∀ i < m.size, P.row (p.wire i).index = combination (p.gather S.rows) (m.row i)) ∧
      ∀ v < c.wireCount, v ∉ p.map Wire.index → P.row v = S.row v := by
  have hsize : (m.onWires p c.wireCount).size = S.size := by simp [onWires, size, ← hS]
  refine ⟨_, if_pos hsize, by simp [onWires, size], fun i hi => ?_, fun v hv hnot => ?_⟩
  · have hlt : (p.wire i).index < c.wireCount :=
      h.index_lt (Placement.wire_mem (by rw [h.length_eq]; exact hi))
    simp only [onWires, row, List.map_map, List.getD_eq_getElem?_getD, List.getElem?_map,
      List.getElem?_range hlt, Option.map_some, Option.getD_some, Function.comp_apply,
      h.findIdx?_index hi]
    exact h.combination_spread S.rows _
  · simp only [onWires, row, List.map_map, List.getD_eq_getElem?_getD, List.getElem?_map,
      List.getElem?_range hv, Option.map_some, Option.getD_some, Function.comp_apply,
      Placement.findIdx?_index_eq_none hnot]
    rw [combination_two_pow, List.getD_eq_getElem?_getD]

end BinaryMatrix

/-! ## The parities after the appended gates -/

namespace Cnot

variable {c : Circuit} {p : Placement} {n : Nat} {rows : List Nat}

/-- The CNOT between the wires of a placement. -/
def relabel (p : Placement) (g : Cnot) : Cnot := ⟨(p.wire g.control).index, (p.wire g.target).index⟩

theorem onParities_toGate (hpositive : ∀ w ∈ p, w.polarity = .positive) {g : Cnot}
    (hg : g.control < p.length) (rows : List Nat) :
    Gate.onParities rows (g.toGate p) = .ok (act rows (g.relabel p)) := by
  have hcontrol : (p.wire g.control).isComplemented = false := by
    rw [Wire.isComplemented, hpositive _ (Placement.wire_mem hg)]
    rfl
  show (if (p.wire g.control).isComplemented then _ else _) = _
  rw [hcontrol]
  rfl

theorem foldlM_onParities_toGate (hpositive : ∀ w ∈ p, w.polarity = .positive)
    {gates : List Cnot} (hgates : ∀ g ∈ gates, g.WellFormed p.length) (rows : List Nat) :
    (gates.map (·.toGate p)).foldlM Gate.onParities rows =
      .ok (run rows (gates.map (relabel p))) := by
  induction gates generalizing rows with
  | nil => rfl
  | cons g gates ih =>
    obtain ⟨hg, hrest⟩ := List.forall_mem_cons.mp hgates
    rw [List.map_cons, List.foldlM_cons, onParities_toGate hpositive hg.control_lt]
    exact ih hrest _

/-- On the placed wires a relabelled CNOT acts as the CNOT itself. -/
theorem gather_act_relabel (h : p.Fits c n) (hrows : rows.length = c.wireCount) {g : Cnot}
    (hg : g.WellFormed n) :
    p.gather (act rows (g.relabel p)) = act (p.gather rows) g := by
  have htarget : (g.relabel p).target < rows.length := by
    rw [hrows]
    exact h.index_lt (Placement.wire_mem (by rw [h.length_eq]; exact hg.target_lt))
  apply eq_of_getD_eq (by rw [length_act, h.length_gather, h.length_gather])
  intro i hi
  rw [h.length_gather] at hi
  have htarget' : g.target < (p.gather rows).length := by rw [h.length_gather]; exact hg.target_lt
  rw [h.getD_gather _ hi, getD_act htarget, getD_act htarget', h.getD_gather rows hi,
    h.getD_gather rows hg.control_lt, h.getD_gather rows hg.target_lt]
  by_cases hit : i = g.target
  · subst hit
    rw [if_pos rfl]
    exact if_pos rfl
  · have hne : (p.wire i).index ≠ (g.relabel p).target := fun heq =>
      hit (h.index_wire_inj hi hg.target_lt heq)
    rw [if_neg hne, if_neg hit]

theorem gather_run_relabel (h : p.Fits c n) (hrows : rows.length = c.wireCount)
    {gates : List Cnot} (hgates : ∀ g ∈ gates, g.WellFormed n) :
    p.gather (run rows (gates.map (relabel p))) = run (p.gather rows) gates := by
  induction gates generalizing rows with
  | nil => rfl
  | cons g gates ih =>
    obtain ⟨hg, hrest⟩ := List.forall_mem_cons.mp hgates
    rw [List.map_cons, run_cons, run_cons, ih (by rw [length_act, hrows]) hrest,
      gather_act_relabel h hrows hg]

/-- All other wires are left alone. -/
theorem getD_run_relabel_of_notMem (h : p.Fits c n) (hrows : rows.length = c.wireCount)
    {gates : List Cnot} (hgates : ∀ g ∈ gates, g.WellFormed n) {v : Nat}
    (hv : v ∉ p.map Wire.index) :
    (run rows (gates.map (relabel p))).getD v 0 = rows.getD v 0 := by
  induction gates generalizing rows with
  | nil => rfl
  | cons g gates ih =>
    obtain ⟨hg, hrest⟩ := List.forall_mem_cons.mp hgates
    have hmem : p.wire g.target ∈ p := Placement.wire_mem (by rw [h.length_eq]; exact hg.target_lt)
    have htarget : (g.relabel p).target < rows.length := by
      rw [hrows]
      exact h.index_lt hmem
    rw [List.map_cons, run_cons, ih (by rw [length_act, hrows]) hrest, getD_act htarget]
    refine if_neg fun he => hv ?_
    rw [he]
    exact List.mem_map_of_mem hmem

/-! ## Linearity -/

theorem getD_map_combination (start rows : List Nat) (i : Nat) :
    (rows.map (combination start)).getD i 0 = combination start (rows.getD i 0) := by
  rw [← combination_zero start, List.getD_map, combination_zero]

theorem map_combination_act (start : List Nat) (hrows : rows.length = n) {g : Cnot}
    (hg : g.WellFormed n) :
    (act rows g).map (combination start) = act (rows.map (combination start)) g := by
  have htarget : g.target < rows.length := by rw [hrows]; exact hg.target_lt
  apply eq_of_getD_eq (by simp)
  intro i _
  rw [getD_map_combination, getD_act htarget, getD_act (by rw [List.length_map]; exact htarget),
    getD_map_combination, getD_map_combination, getD_map_combination]
  split
  · rw [combination_xor]
  · rfl

theorem map_combination_run (start : List Nat) (hrows : rows.length = n) {gates : List Cnot}
    (hgates : ∀ g ∈ gates, g.WellFormed n) :
    (run rows gates).map (combination start) = run (rows.map (combination start)) gates := by
  induction gates generalizing rows with
  | nil => rfl
  | cons g gates ih =>
    obtain ⟨hg, hrest⟩ := List.forall_mem_cons.mp hgates
    rw [run_cons, run_cons, ih (by rw [length_act, hrows]) hrest,
      map_combination_act start hrows hg]

/-- CNOTs that start from arbitrary rows combine these as they combine units. -/
theorem run_eq_map_combination {start : List Nat} (hstart : start.length = n) {gates : List Cnot}
    (hgates : ∀ g ∈ gates, g.WellFormed n) :
    run start gates = (run (Bits.units n) gates).map (combination start) := by
  have hunits : (Bits.units n).map (combination start) = start := by
    apply eq_of_getD_eq (by simp [hstart])
    intro i hi
    rw [getD_map_combination, getD_units (by simpa using hi), combination_two_pow]
  rw [map_combination_run start (Bits.length_units n) hgates, hunits]

end Cnot

end CircuitSynthesis
