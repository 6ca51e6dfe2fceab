import CircuitSynthesis.Proofs.Circuit.Bookkeeping
import CircuitSynthesis.Proofs.Staircase.RoundTrip

/-!
# The size of a staircase

A tour visits the parities whose highest bit is that of its qubit and no others,
and in Gray code each of them once (`controls_tour`).

How many CNOTs a staircase takes depends on the order of the walk and on the
number of qubits alone. In Gray code every step is one CNOT, and there are as
many steps as parities. In counting order a step takes a CNOT for each flipped
bit. Flips that clear bits undo earlier flips, so counting from zero costs two
flips for each step, less the bits that are set in the end (`length_ascent`);
clearing these closes the tour and evens the account. The terms add one
rotation each, unless their angle is zero (`synthesize_gateCount`).
-/

namespace CircuitSynthesis.Staircase

variable {i n : Nat} {terms : PhasePolynomial}

/-! ## One tour -/

theorem length_controls_gray (i : Nat) : (controls .gray i).length = 2 ^ i := by
  have hpow : 2 ^ (i + 1) = 2 * 2 ^ i := by rw [Nat.pow_succ, Nat.mul_comm]
  have hpos : 0 < 2 ^ i := Nat.two_pow_pos i
  simp only [controls, List.length_append, List.length_map, List.length_reverse,
    List.length_range', List.length_singleton]
  omega

/-- The bits that are set have been flipped once more than the others. -/
theorem length_ascent {count : Nat} (h : count < 2 ^ i) :
    (ascent i count).length + Bits.weight count = 2 * count := by
  induction count with
  | zero => rfl
  | succ count ih =>
    have hlt : count ^^^ (count + 1) < 2 ^ i := Nat.xor_lt_two_pow (by omega) h
    have hflips : ((List.range i).filter ((count ^^^ (count + 1)).testBit ·)).length =
        Bits.weight (count ^^^ (count + 1)) := by
      rw [← List.countP_eq_length_filter]
      exact (Bits.weight_eq_countP hlt).symm
    have hstep := Bits.weight_xor_succ count
    have hbefore := ih (by omega)
    rw [ascent_succ, List.length_append, hflips]
    omega

theorem length_controls_binary (i : Nat) : (controls .binary i).length + 2 = 2 ^ (i + 1) := by
  have hpos : 0 < 2 ^ i := Nat.two_pow_pos i
  have hcontrols : controls .binary i = ascent i (2 ^ i - 1) ++ List.range i := rfl
  have hascent := length_ascent (i := i) (show 2 ^ i - 1 < 2 ^ i by omega)
  rw [Bits.weight_two_pow_sub_one] at hascent
  rw [hcontrols, List.length_append, List.length_range, Nat.pow_succ]
  omega

/-! ## What one tour visits -/

/-- Flips below bit `i` do not leave the parities with highest bit `i`. -/
theorem mem_block_of_mem_trail {cs : List Nat} (hcs : ∀ c ∈ cs, c < i) {v p : Nat}
    (hlow : 2 ^ i ≤ v) (hhigh : v < 2 ^ (i + 1)) (hp : p ∈ trail v cs) :
    2 ^ i ≤ p ∧ p < 2 ^ (i + 1) := by
  induction cs generalizing v with
  | nil => cases hp
  | cons c cs ih =>
    obtain ⟨hc, hrest⟩ := List.forall_mem_cons.mp hcs
    have hlow' : 2 ^ i ≤ v ^^^ 2 ^ c := by
      apply Nat.ge_two_pow_of_testBit
      rw [Nat.testBit_xor, Nat.testBit_of_two_pow_le_and_two_pow_add_one_gt hlow hhigh,
        Nat.testBit_two_pow_of_ne (Nat.ne_of_lt hc)]
      rfl
    have hhigh' : v ^^^ 2 ^ c < 2 ^ (i + 1) :=
      Nat.xor_lt_two_pow hhigh (Nat.pow_lt_pow_right (by omega) (by omega))
    rcases List.mem_cons.mp hp with rfl | hp
    · exact ⟨hlow', hhigh'⟩
    · exact ih hrest hlow' hhigh' hp

/-- A tour visits the parities with highest bit `i`, and no others. -/
theorem Tours.mem_trail_iff {cs : List Nat} (h : Tours i cs) (hne : cs ≠ []) {v : Nat} :
    v ∈ trail (2 ^ i) cs ↔ 2 ^ i ≤ v ∧ v < 2 ^ (i + 1) := by
  constructor
  · exact mem_block_of_mem_trail h.controls_lt (Nat.le_refl _)
      (Nat.pow_lt_pow_right (by omega) (by omega))
  · rintro ⟨hlow, hhigh⟩
    rcases Nat.eq_or_lt_of_le hlow with rfl | hlow
    · -- The parity of the qubit itself is where the tour ends.
      have hend := flipped_mem_trail (v := 2 ^ i) hne
      rwa [h.returns] at hend
    · exact h.visits v hlow hhigh

theorem controls_ne_nil (order : WalkOrder) (hi : 0 < i) : controls order i ≠ [] := by
  cases order with
  | gray => exact List.append_ne_nil_of_right_ne_nil _ (List.cons_ne_nil _ _)
  | binary =>
    refine List.append_ne_nil_of_right_ne_nil _ fun hnil => ?_
    rw [List.range_eq_nil] at hnil
    omega

theorem length_trail (v : Nat) (cs : List Nat) : (trail v cs).length = cs.length := by
  induction cs generalizing v with
  | nil => rfl
  | cons c cs ih => exact congrArg (· + 1) (ih _)

/-- In Gray code there are as many steps as parities, so none is visited twice. -/
theorem nodup_trail_gray (hi : 0 < i) : (trail (2 ^ i) (controls .gray i)).Nodup := by
  have htours := tours_controls .gray hi
  have hsubset : List.range' (2 ^ i) (2 ^ i) ⊆ trail (2 ^ i) (controls .gray i) := by
    intro v hv
    obtain ⟨hlow, hhigh⟩ := List.mem_range'_1.mp hv
    refine (htours.mem_trail_iff (controls_ne_nil .gray hi)).mpr ⟨hlow, ?_⟩
    rw [Nat.pow_succ]
    omega
  have hlength : (trail (2 ^ i) (controls .gray i)).length ≤
      (List.range' (2 ^ i) (2 ^ i)).length := by
    rw [length_trail, length_controls_gray, List.length_range']
  have hnodup : (List.range' (2 ^ i) (2 ^ i)).Nodup := List.nodup_range'
  have hperm := (hnodup.subperm hsubset).perm_of_length_le hlength
  exact hperm.nodup_iff.mp hnodup

/-- **Tours.** In either order the flips stay below bit `i`, the parities on the
way are those with highest bit `i` and no others, and the last one is `2 ^ i`
again. Gray code takes `2 ^ i` steps and meets no parity twice. -/
theorem controls_tour (order : WalkOrder) (i : Nat) (hi : 1 ≤ i) :
    (∀ c ∈ controls order i, c < i) ∧
    (∀ v, v ∈ trail (2 ^ i) (controls order i) ↔ 2 ^ i ≤ v ∧ v < 2 ^ (i + 1)) ∧
    flipped (2 ^ i) (controls order i) = 2 ^ i ∧
    (controls .gray i).length = 2 ^ i ∧ (trail (2 ^ i) (controls .gray i)).Nodup := by
  have htours := tours_controls order hi
  exact ⟨htours.controls_lt, fun _ => htours.mem_trail_iff (controls_ne_nil order hi),
    htours.returns, length_controls_gray i, nodup_trail_gray hi⟩

/-- The widest tour whose parities are below `2 ^ 63`, and the walks of the third qubit. -/
theorem controls_tour_widest :
    (∀ c ∈ controls .binary 62, c < 62) ∧ flipped (2 ^ 62) (controls .binary 62) = 2 ^ 62 ∧
    (controls .gray 62).length = 2 ^ 62 ∧
    controls .binary 2 = [0, 0, 1, 0, 0, 1] ∧ flipped 4 [0, 0, 1, 0, 0, 1] = 4 ∧
    controls .gray 2 = [0, 1, 0, 1] ∧ (trail 4 [0, 1, 0, 1]).Nodup := by
  obtain ⟨hlt, -, hend, hlength, -⟩ := controls_tour .binary 62 (by decide)
  obtain ⟨-, -, hend', -⟩ := controls_tour .binary 2 (by decide)
  obtain ⟨-, -, -, -, hnodup⟩ := controls_tour .gray 2 (by decide)
  have hbinary : controls .binary 2 = [0, 0, 1, 0, 0, 1] := by decide
  have hgray : controls .gray 2 = [0, 1, 0, 1] := by decide
  rw [hbinary] at hend'
  rw [hgray] at hnodup
  exact ⟨hlt, hend, hlength, hbinary, hend', hgray, hnodup⟩

/-! ## All tours -/

/-- One more qubit is walked first. -/
theorem gates_succ (order : WalkOrder) (hn : 1 ≤ n) :
    gates order (n + 1) = (controls order n).map (⟨·, n⟩) ++ gates order n := by
  have hrange : List.range' 1 n = List.range' 1 (n - 1) ++ [n] := by
    obtain ⟨n, rfl⟩ := Nat.exists_eq_add_of_le' hn
    rw [List.range'_concat]
    simp [Nat.add_comm]
  rw [gates, Nat.add_sub_cancel, hrange, List.reverse_append, List.reverse_singleton,
    List.flatMap_append, List.flatMap_singleton]
  rfl

theorem length_gates_gray (hn : 1 ≤ n) : (gates .gray n).length = 2 ^ n - 2 := by
  induction n, hn using Nat.le_induction with
  | base => rfl
  | succ n hn ih =>
    have hpow : 2 ^ 1 ≤ 2 ^ n := Nat.pow_le_pow_right (by omega) hn
    rw [gates_succ _ hn, List.length_append, List.length_map, length_controls_gray, ih,
      Nat.pow_succ]
    omega

theorem two_mul_le_two_pow (hn : 1 ≤ n) : 2 * n ≤ 2 ^ n := by
  obtain ⟨n, rfl⟩ := Nat.exists_eq_add_of_le' hn
  have hlt : n < 2 ^ n := Nat.lt_two_pow_self
  rw [Nat.pow_succ]
  omega

theorem length_gates_binary (hn : 1 ≤ n) :
    (gates .binary n).length = 2 ^ (n + 1) - 2 * n - 2 := by
  induction n, hn using Nat.le_induction with
  | base => rfl
  | succ n hn ih =>
    have htour := length_controls_binary n
    have hle := two_mul_le_two_pow hn
    have hpow : 2 ^ (n + 1) = 2 ^ n * 2 := Nat.pow_succ _ _
    have hpow' : 2 ^ (n + 1 + 1) = 2 ^ (n + 1) * 2 := Nat.pow_succ _ _
    rw [gates_succ _ hn, List.length_append, List.length_map, ih]
    omega

/-! ## The whole circuit -/

/-- A CNOT for each flip and a turn for each term that is not zero. -/
theorem length_walk (order : WalkOrder) (h : Solvable n terms) (hterms : terms.isEmpty = false) :
    (walk order n terms).length =
      (gates order n).length + terms.terms.countP fun t => !t.2.isZero := by
  have hturns : (PhaseStep.turns (Bits.units n) (walk order n terms)).length =
      terms.terms.countP fun t => !t.2.isZero := by
    rw [(turns_walk_perm order h).length_eq, List.countP_eq_length_filter]
    rfl
  have hcnots : PhaseStep.cnots (walk order n terms) = gates order n := by
    rw [walk, hterms]
    exact PhaseWalk.cnots_steps n terms (gates order n)
  rw [PhaseStep.length_eq_cnots_add_turns (Bits.units n), hturns, hcnots]

/-- On a circuit of its own, there are no gates but the steps, and all of them act. -/
theorem exists_synthesize_length (order : WalkOrder) (h : Solvable n terms) :
    ∃ s, synthesize n terms order = .ok s ∧
      s.circuit.gateCount = (walk order n terms).length ∧
      s.circuit.liveGates.length = (walk order n terms).length := by
  obtain ⟨events, hsynthesize⟩ := synthesize_eq_ok order h
  refine ⟨_, hsynthesize, ?_, ?_⟩
  · rw [Circuit.foldl_place_gateCount, Circuit.ofQubits_gateCount, List.length_map, Nat.zero_add]
  · rw [Circuit.foldl_place_liveGates, Circuit.ofQubits_liveGates, List.nil_append,
      List.length_map]

/-- **Size.** With at least one term, and whatever the masks are, a staircase on
`n` qubits has `2 ^ n - 2` CNOTs in Gray code and `2 ^ (n + 1) - 2 * n - 2` in
counting order, and one more gate for each term whose angle is not zero. So Gray
code never takes more gates. -/
theorem synthesize_gateCount (n : Nat) (terms : PhasePolynomial) (hn : 1 ≤ n)
    (h : Solvable n terms) (hterms : terms.isEmpty = false) :
    ∃ gray binary, synthesize n terms .gray = .ok gray ∧ synthesize n terms .binary = .ok binary ∧
      gray.circuit.gateCount = 2 ^ n - 2 + terms.terms.countP (fun t => !t.2.isZero) ∧
      binary.circuit.gateCount =
        2 ^ (n + 1) - 2 * n - 2 + terms.terms.countP (fun t => !t.2.isZero) ∧
      gray.circuit.liveGates.length = gray.circuit.gateCount ∧
      binary.circuit.liveGates.length = binary.circuit.gateCount ∧
      gray.circuit.gateCount ≤ binary.circuit.gateCount := by
  obtain ⟨gray, hgray, hcount, hlive⟩ := exists_synthesize_length .gray h
  obtain ⟨binary, hbinary, hcount', hlive'⟩ := exists_synthesize_length .binary h
  rw [length_walk .gray h hterms, length_gates_gray hn] at hcount hlive
  rw [length_walk .binary h hterms, length_gates_binary hn] at hcount' hlive'
  refine ⟨gray, binary, hgray, hbinary, hcount, hcount', by rw [hlive, hcount],
    by rw [hlive', hcount'], ?_⟩
  have hle := two_mul_le_two_pow hn
  rw [hcount, hcount', Nat.pow_succ]
  omega

/-- Three terms on three qubits, one of them zero and one in radians. -/
theorem synthesize_gateCount_three_qubits :
    let terms : PhasePolynomial :=
      ⟨[(3, .turn 0), (5, .turn 3), (7, .radians 0.25)], by decide⟩
    Solvable 3 terms ∧ terms.isEmpty = false ∧
      ∃ gray binary, synthesize 3 terms .gray = .ok gray ∧ synthesize 3 terms .binary = .ok binary ∧
        gray.circuit.gateCount = 8 ∧ binary.circuit.gateCount = 10 := by
  intro terms
  have hsolvable : Solvable 3 terms := ⟨by decide, by decide⟩
  have hnonzero : terms.terms.countP (fun t => !t.2.isZero) = 2 := by decide
  obtain ⟨gray, binary, hgray, hbinary, hcount, hcount', -⟩ :=
    synthesize_gateCount 3 terms (by decide) hsolvable rfl
  rw [hnonzero] at hcount hcount'
  exact ⟨hsolvable, rfl, gray, binary, hgray, hbinary, hcount, hcount'⟩

end CircuitSynthesis.Staircase
