import CircuitSynthesis.Proofs.PhaseWalk.Turns
import CircuitSynthesis.Synthesis.Staircase
import Mathlib.Data.Nat.Bitwise

/-!
# The walk of a staircase

While qubit `i` is walked, the qubits below it hold their own values, so a
CNOT from qubit `c` flips bit `c` of the parity on qubit `i`. In either order
the walk visits every parity with highest bit `i` and returns to `2 ^ i`
(`tours_controls`). In Gray code neighbours differ in one bit, the code runs
through all parities, and the last step closes the ring. In counting order
each number is reached when its last bit is flipped.
-/

namespace CircuitSynthesis.Staircase

variable {i n v : Nat} {cs : List Nat}

/-! ## Flipping bits of a parity -/

/-- The parity after bits were flipped. -/
def flipped (v : Nat) (cs : List Nat) : Nat := cs.foldl (fun v c => v ^^^ 2 ^ c) v

/-- The parities after each flip. -/
def trail (v : Nat) : List Nat → List Nat
  | [] => []
  | c :: cs => (v ^^^ 2 ^ c) :: trail (v ^^^ 2 ^ c) cs

theorem flipped_append (v : Nat) (cs ds : List Nat) :
    flipped v (cs ++ ds) = flipped (flipped v cs) ds := List.foldl_append

theorem trail_append (v : Nat) (cs ds : List Nat) :
    trail v (cs ++ ds) = trail v cs ++ trail (flipped v cs) ds := by
  induction cs generalizing v with
  | nil => rfl
  | cons c cs ih => exact congrArg ((v ^^^ 2 ^ c) :: ·) (ih _)

theorem flipped_mem_trail (h : cs ≠ []) : flipped v cs ∈ trail v cs := by
  obtain ⟨ds, c, rfl⟩ := List.eq_nil_or_concat cs |>.resolve_left h
  rw [List.concat_eq_append, flipped_append, trail_append]
  exact List.mem_append_right _ List.mem_cons_self

/-- The bits of `s` below `i`, flipped one after another, add up to `s`. -/
theorem flipped_filter_range (v s i : Nat) :
    flipped v ((List.range i).filter s.testBit) = v ^^^ s % 2 ^ i := by
  induction i with
  | zero => simp [flipped, Nat.mod_one]
  | succ i ih =>
    have hsplit : s % 2 ^ (i + 1) = s % 2 ^ i ^^^ if s.testBit i then 2 ^ i else 0 := by
      apply Nat.eq_of_testBit_eq
      intro j
      rw [Nat.testBit_xor, Nat.testBit_mod_two_pow, Nat.testBit_mod_two_pow]
      by_cases hj : i = j
      · subst hj
        cases hbit : s.testBit i <;> simp
      · have hlt : j < i + 1 ↔ j < i := by omega
        cases s.testBit i <;> simp [hj, hlt]
    rw [List.range_succ, List.filter_append, flipped_append, ih, hsplit, ← Nat.xor_assoc]
    cases hbit : s.testBit i <;> simp [hbit, flipped]

/-- The flips stay below bit `i`, visit every parity above `2 ^ i` with highest
bit `i`, and end where they began. -/
structure Tours (i : Nat) (cs : List Nat) : Prop where
  controls_lt : ∀ c ∈ cs, c < i
  returns : flipped (2 ^ i) cs = 2 ^ i
  visits : ∀ mask, 2 ^ i < mask → mask < 2 ^ (i + 1) → mask ∈ trail (2 ^ i) cs

/-! ## Gray code -/

theorem grayCode_xor (a b : Nat) : grayCode (a ^^^ b) = grayCode a ^^^ grayCode b := by
  unfold grayCode
  rw [Nat.shiftRight_xor_distrib]
  ac_rfl

theorem testBit_grayCode (k j : Nat) :
    (grayCode k).testBit j = (k.testBit j ^^ k.testBit (j + 1)) := by
  rw [grayCode, Nat.testBit_xor, Nat.testBit_shiftRight, Nat.add_comm 1 j]

theorem grayCode_two_pow_sub_one (b : Nat) : grayCode (2 ^ (b + 1) - 1) = 2 ^ b := by
  apply Nat.eq_of_testBit_eq
  intro j
  rw [testBit_grayCode, Nat.testBit_two_pow_sub_one, Nat.testBit_two_pow_sub_one,
    Nat.testBit_two_pow]
  by_cases hj : b = j
  · simp [hj]
  · have hlt : j < b + 1 ↔ j + 1 < b + 1 := by omega
    simp [hj, hlt]

/-- Counting up by one flips a run of lowest bits. -/
theorem exists_xor_succ (k : Nat) : ∃ b, k ^^^ (k + 1) = 2 ^ (b + 1) - 1 := by
  induction k using Nat.strongRecOn with
  | ind k ih =>
    have hdiv : (k ^^^ (k + 1)) / 2 = k / 2 ^^^ (k + 1) / 2 := Nat.xor_div_two
    have hmod : (k ^^^ (k + 1)) % 2 = (k + (k + 1)) % 2 := Nat.xor_mod_two_eq
    rcases Nat.mod_two_eq_zero_or_one k with heven | hodd
    · refine ⟨0, ?_⟩
      rw [show (k + 1) / 2 = k / 2 by omega, Nat.xor_self] at hdiv
      omega
    · obtain ⟨b, hb⟩ := ih (k / 2) (by omega)
      refine ⟨b + 1, ?_⟩
      rw [show (k + 1) / 2 = k / 2 + 1 by omega, hb] at hdiv
      have hpos : 0 < 2 ^ (b + 1) := Nat.two_pow_pos _
      rw [Nat.pow_succ 2 (b + 1)]
      omega

/-- Neighbours in Gray code differ in a single bit. -/
theorem exists_grayCode_succ (k : Nat) : ∃ b, grayCode (k + 1) ^^^ grayCode k = 2 ^ b := by
  obtain ⟨b, hb⟩ := exists_xor_succ k
  exact ⟨b, by rw [← grayCode_xor, Nat.xor_comm, hb, grayCode_two_pow_sub_one]⟩

theorem grayCode_lt_iff {k : Nat} : grayCode k < 2 ^ i ↔ k < 2 ^ i := by
  constructor
  · intro h
    apply Classical.byContradiction
    intro hge
    -- The highest bit of a number is also the highest bit of its code.
    have hpos : 0 < 2 ^ i := Nat.two_pow_pos i
    have hbit : (grayCode k).testBit k.log2 = true := by
      rw [testBit_grayCode, Nat.testBit_log2 (by omega),
        Bits.testBit_eq_false_of_log2_lt (Nat.lt_succ_self _)]
      rfl
    have hlog : i ≤ k.log2 := (Nat.le_log2 (by omega)).mpr (by omega)
    exact absurd (Bits.lt_of_testBit h hbit) (by omega)
  · intro h
    exact Nat.xor_lt_two_pow h (Nat.lt_of_le_of_lt (Nat.shiftRight_le k 1) h)

/-- Every number is the Gray code of some number. -/
theorem exists_grayCode_eq (m : Nat) : ∃ k, grayCode k = m := by
  induction m using Nat.strongRecOn with
  | ind m ih =>
    rcases Nat.eq_zero_or_pos m with rfl | hpos
    · exact ⟨0, rfl⟩
    · obtain ⟨u, hu⟩ := ih (m / 2) (by omega)
      -- All bits but the lowest are settled; the lowest one is free to choose.
      refine ⟨2 * u + (m + u) % 2, ?_⟩
      have hhalf : (2 * u + (m + u) % 2) >>> 1 = u := by
        rw [Nat.shiftRight_one]
        omega
      have hdiv : grayCode (2 * u + (m + u) % 2) / 2 = m / 2 := by
        rw [grayCode, hhalf, Nat.xor_div_two, ← hu, grayCode, Nat.shiftRight_one,
          show (2 * u + (m + u) % 2) / 2 = u by omega]
      have hmod : grayCode (2 * u + (m + u) % 2) % 2 = m % 2 := by
        rw [grayCode, hhalf, Nat.xor_mod_two_eq]
        omega
      omega

theorem lowest_two_pow (b : Nat) : lowest (2 ^ b) = b := by
  have hfind : (List.range ((2 ^ b).log2 + 1)).find? (2 ^ b).testBit = some b := by
    rw [List.find?_range_eq_some, Nat.log2_two_pow]
    refine ⟨by simp, by simp, fun j hj => ?_⟩
    simp [show ¬b = j by omega]
  rw [lowest, hfind]
  rfl

/-- Flipping the bit in which two codes differ leads from one to the other. -/
theorem xor_two_pow_lowest {a b k : Nat} (h : a ^^^ b = 2 ^ k) : a ^^^ 2 ^ lowest (a ^^^ b) = b := by
  rw [h, lowest_two_pow, ← h, Nat.xor_xor_cancel_left]

/-- The controls that lead from the code of `low + count` down to that of `low`. -/
def descent (low count : Nat) : List Nat :=
  (List.range' (low + 1) count).reverse.map fun j => lowest (grayCode j ^^^ grayCode (j - 1))

theorem descent_succ (low count : Nat) : descent low (count + 1) =
    lowest (grayCode (low + count + 1) ^^^ grayCode (low + count)) :: descent low count := by
  unfold descent
  rw [List.range'_concat, List.reverse_append, Nat.one_mul,
    show low + 1 + count = low + count + 1 by omega]
  rfl

theorem xor_two_pow_descent_step (k : Nat) :
    grayCode (k + 1) ^^^ 2 ^ lowest (grayCode (k + 1) ^^^ grayCode k) = grayCode k := by
  obtain ⟨b, hb⟩ := exists_grayCode_succ k
  exact xor_two_pow_lowest hb

theorem flipped_descent (low count : Nat) :
    flipped (grayCode (low + count)) (descent low count) = grayCode low := by
  induction count with
  | zero => rfl
  | succ count ih =>
    rw [descent_succ, flipped, List.foldl_cons]
    show flipped (grayCode (low + count + 1) ^^^ _) _ = _
    rw [xor_two_pow_descent_step, ih]

theorem trail_descent (low count : Nat) :
    trail (grayCode (low + count)) (descent low count) =
      (List.range' low count).reverse.map grayCode := by
  induction count with
  | zero => rfl
  | succ count ih =>
    rw [descent_succ, trail]
    show (grayCode (low + count + 1) ^^^ _) :: trail (grayCode (low + count + 1) ^^^ _) _ = _
    rw [xor_two_pow_descent_step, ih, List.range'_concat, List.reverse_append, Nat.one_mul]
    rfl

theorem grayCode_mem_block {k : Nat} (hk : 2 ^ i ≤ k) (hk' : k < 2 ^ (i + 1)) :
    2 ^ i ≤ grayCode k ∧ grayCode k < 2 ^ (i + 1) :=
  ⟨Nat.le_of_not_lt fun h => absurd (grayCode_lt_iff.mp h) (by omega), grayCode_lt_iff.mpr hk'⟩

theorem descent_lt {c : Nat} (hc : c ∈ descent (2 ^ i) (2 ^ i - 1)) : c < i := by
  obtain ⟨j, hj, rfl⟩ := List.mem_map.mp hc
  obtain ⟨hlow, hhigh⟩ := List.mem_range'_1.mp (List.mem_reverse.mp hj)
  have hpow : 2 ^ (i + 1) = 2 * 2 ^ i := by rw [Nat.pow_succ, Nat.mul_comm]
  obtain ⟨b, hb⟩ := exists_grayCode_succ (j - 1)
  rw [show j - 1 + 1 = j by omega] at hb
  obtain ⟨ha, ha'⟩ := grayCode_mem_block (i := i) (k := j) (by omega) (by omega)
  obtain ⟨hb', hb''⟩ := grayCode_mem_block (i := i) (k := j - 1) (by omega) (by omega)
  have hlt := Bits.xor_lt_of_same_highest ha ha' hb' hb''
  rw [hb] at hlt ⊢
  rw [lowest_two_pow]
  exact (Nat.pow_lt_pow_iff_right (by omega)).mp hlt

/-- The step that closes the ring flips the bit below the highest. -/
theorem grayCode_low_xor_high (i : Nat) :
    grayCode (2 ^ (i + 1)) ^^^ grayCode (2 ^ (i + 2) - 1) = 2 ^ i := by
  rw [grayCode_two_pow_sub_one, grayCode, Nat.shiftRight_one, Nat.pow_succ,
    Nat.mul_div_cancel _ (by omega), Nat.xor_comm, Nat.xor_xor_cancel_left]

theorem tours_gray (i : Nat) : Tours (i + 1) (controls .gray (i + 1)) := by
  have hpow : 2 ^ (i + 2) = 2 * 2 ^ (i + 1) := by rw [Nat.pow_succ, Nat.mul_comm]
  have hpos : 0 < 2 ^ (i + 1) := Nat.two_pow_pos _
  have hhigh : 2 ^ (i + 2) - 1 = 2 ^ (i + 1) + (2 ^ (i + 1) - 1) := by omega
  have hcode : grayCode (2 ^ (i + 1) + (2 ^ (i + 1) - 1)) = 2 ^ (i + 1) := by
    rw [← hhigh, grayCode_two_pow_sub_one]
  have hcontrols : controls .gray (i + 1) = descent (2 ^ (i + 1)) (2 ^ (i + 1) - 1) ++ [i] := by
    unfold controls
    simp only
    rw [grayCode_low_xor_high, lowest_two_pow, show 2 ^ (i + 2) - 1 - 2 ^ (i + 1) =
      2 ^ (i + 1) - 1 by omega]
    rfl
  have hdescent := flipped_descent (2 ^ (i + 1)) (2 ^ (i + 1) - 1)
  have htrail := trail_descent (2 ^ (i + 1)) (2 ^ (i + 1) - 1)
  rw [hcode] at hdescent htrail
  rw [hcontrols]
  constructor
  · intro c hc
    rcases List.mem_append.mp hc with hc | hc
    · exact descent_lt hc
    · rw [List.mem_singleton.mp hc]
      omega
  · rw [flipped_append, hdescent]
    show grayCode (2 ^ (i + 1)) ^^^ 2 ^ i = _
    rw [← grayCode_low_xor_high i, Nat.xor_xor_cancel_left, grayCode_two_pow_sub_one]
  · intro mask hlow hhigh'
    obtain ⟨k, rfl⟩ := exists_grayCode_eq mask
    have hk : k < 2 ^ (i + 2) := grayCode_lt_iff.mp hhigh'
    have hk' : 2 ^ (i + 1) ≤ k :=
      Nat.le_of_not_lt fun h => absurd (grayCode_lt_iff.mpr h) (by omega)
    -- The walk starts at the last code, which is not above `2 ^ (i + 1)`.
    have hne : k ≠ 2 ^ (i + 1) + (2 ^ (i + 1) - 1) := by
      rintro rfl
      omega
    rw [trail_append, htrail]
    refine List.mem_append_left _ (List.mem_map_of_mem (List.mem_reverse.mpr ?_))
    exact List.mem_range'_1.mpr ⟨hk', by omega⟩

/-! ## Counting -/

/-- The controls that count from zero up to `count`. -/
def ascent (i count : Nat) : List Nat :=
  (List.range count).flatMap fun k => (List.range i).filter ((k ^^^ (k + 1)).testBit ·)

theorem ascent_succ (i count : Nat) : ascent i (count + 1) =
    ascent i count ++ (List.range i).filter ((count ^^^ (count + 1)).testBit ·) := by
  rw [ascent, List.range_succ, List.flatMap_append, List.flatMap_singleton]
  rfl

/-- One count takes `v ^^^ k` to `v ^^^ (k + 1)`. -/
theorem flipped_count {k : Nat} (hk : k + 1 < 2 ^ i) (v : Nat) :
    flipped (v ^^^ k) ((List.range i).filter ((k ^^^ (k + 1)).testBit ·)) = v ^^^ (k + 1) := by
  have hlt : k ^^^ (k + 1) < 2 ^ i := Nat.xor_lt_two_pow (by omega) hk
  rw [flipped_filter_range, Nat.mod_eq_of_lt hlt, Nat.xor_assoc, Nat.xor_xor_cancel_left]

theorem count_ne_nil {k : Nat} (hk : k + 1 < 2 ^ i) :
    (List.range i).filter ((k ^^^ (k + 1)).testBit ·) ≠ [] := by
  intro hnil
  have hflipped := flipped_count hk 0
  rw [hnil, Nat.zero_xor, Nat.zero_xor] at hflipped
  change k = k + 1 at hflipped
  omega

theorem flipped_ascent {count : Nat} (h : count < 2 ^ i) (v : Nat) :
    flipped v (ascent i count) = v ^^^ count := by
  induction count with
  | zero => exact (Nat.xor_zero v).symm
  | succ count ih => rw [ascent_succ, flipped_append, ih (by omega), flipped_count h]

theorem mem_trail_ascent {count k : Nat} (h : count < 2 ^ i) (hk : 0 < k) (hk' : k ≤ count)
    (v : Nat) : v ^^^ k ∈ trail v (ascent i count) := by
  induction count with
  | zero => omega
  | succ count ih =>
    rw [ascent_succ, trail_append, flipped_ascent (by omega)]
    rcases Nat.lt_or_eq_of_le hk' with hlt | rfl
    · exact List.mem_append_left _ (ih (by omega) (by omega))
    · have hlast := flipped_mem_trail (v := v ^^^ count) (count_ne_nil h)
      rw [flipped_count h] at hlast
      exact List.mem_append_right _ hlast

theorem tours_binary (i : Nat) : Tours i (controls .binary i) := by
  have hpos : 0 < 2 ^ i := Nat.two_pow_pos i
  have hrange : List.range i = (List.range i).filter (2 ^ i - 1).testBit := by
    refine (List.filter_eq_self.mpr fun j hj => ?_).symm
    rw [Nat.testBit_two_pow_sub_one, decide_eq_true_iff]
    exact List.mem_range.mp hj
  have hcontrols : controls .binary i = ascent i (2 ^ i - 1) ++ List.range i := rfl
  rw [hcontrols]
  constructor
  · intro c hc
    rcases List.mem_append.mp hc with hc | hc
    · obtain ⟨k, -, hck⟩ := List.mem_flatMap.mp hc
      exact List.mem_range.mp (List.mem_filter.mp hck).1
    · exact List.mem_range.mp hc
  · -- In the end all lower bits are set, and they are cleared again.
    rw [flipped_append, flipped_ascent (by omega), hrange, flipped_filter_range,
      Nat.mod_eq_of_lt (by omega), Nat.xor_assoc, Nat.xor_self, Nat.xor_zero]
  · intro mask hlow hhigh
    rw [Nat.pow_succ] at hhigh
    have hlt : 2 ^ i ^^^ mask < 2 ^ i :=
      Bits.xor_lt_of_same_highest (Nat.le_refl _) (by rw [Nat.pow_succ]; omega) (by omega)
        (by rw [Nat.pow_succ]; omega)
    have hself : 2 ^ i ^^^ (2 ^ i ^^^ mask) = mask := Nat.xor_xor_cancel_left _ _
    have hne : 2 ^ i ^^^ mask ≠ 0 := by
      intro hzero
      rw [hzero, Nat.xor_zero] at hself
      omega
    have hmem : 2 ^ i ^^^ (2 ^ i ^^^ mask) ∈ trail (2 ^ i) (ascent i (2 ^ i - 1)) :=
      mem_trail_ascent (by omega) (by omega) (by omega) (2 ^ i)
    rw [hself] at hmem
    rw [trail_append]
    exact List.mem_append_left _ hmem

theorem tours_controls (order : WalkOrder) (hi : 0 < i) : Tours i (controls order i) := by
  cases order with
  | binary => exact tours_binary i
  | gray =>
    obtain ⟨i, rfl⟩ := Nat.exists_eq_succ_of_ne_zero (Nat.ne_of_gt hi)
    exact tours_gray i

/-! ## One qubit after another -/

theorem act_set_units {c : Nat} (hi : i < n) (hc : c < i) (v : Nat) :
    Cnot.act ((Bits.units n).set i v) ⟨c, i⟩ = (Bits.units n).set i (v ^^^ 2 ^ c) := by
  unfold Cnot.act addRow
  have htarget : ((Bits.units n).set i v).getD i 0 = v := by simp [hi]
  have hcontrol : ((Bits.units n).set i v).getD c 0 = 2 ^ c := by
    rw [List.getD_eq_getElem?_getD, List.getElem?_set_ne (by omega),
      ← List.getD_eq_getElem?_getD, getD_units (by omega)]
  simp only [htarget, hcontrol, List.set_set]

/-- CNOTs from lower qubits that hold their own values flip the bits of the
parity on qubit `i`. -/
theorem run_set_units (hi : i < n) (hcs : ∀ c ∈ cs, c < i) (v : Nat) :
    Cnot.run ((Bits.units n).set i v) (cs.map (⟨·, i⟩)) = (Bits.units n).set i (flipped v cs) := by
  induction cs generalizing v with
  | nil => rfl
  | cons c cs ih =>
    obtain ⟨hc, hrest⟩ := List.forall_mem_cons.mp hcs
    rw [List.map_cons, Cnot.run_cons, act_set_units hi hc, ih hrest]
    rfl

theorem reached_set_units (hi : i < n) (hcs : ∀ c ∈ cs, c < i) (v : Nat) :
    PhaseWalk.reached ((Bits.units n).set i v) (cs.map (⟨·, i⟩)) = trail v cs := by
  induction cs generalizing v with
  | nil => rfl
  | cons c cs ih =>
    obtain ⟨hc, hrest⟩ := List.forall_mem_cons.mp hcs
    rw [List.map_cons, PhaseWalk.reached, act_set_units hi hc, ih hrest, trail]
    simp [hi]

theorem set_units_self (hi : i < n) : (Bits.units n).set i (2 ^ i) = Bits.units n := by
  rw [← Bits.getElem_units (n := n) (by simpa using hi)]
  exact List.set_getElem_self _

/-- A tour leaves all qubits as they were. -/
theorem Tours.run_units (h : Tours i cs) (hi : i < n) :
    Cnot.run (Bits.units n) (cs.map (⟨·, i⟩)) = Bits.units n := by
  have hrun := run_set_units hi h.controls_lt (2 ^ i)
  rwa [h.returns, set_units_self hi] at hrun

theorem Tours.mem_reached (h : Tours i cs) (hi : i < n) {mask : Nat} (hlow : 2 ^ i < mask)
    (hhigh : mask < 2 ^ (i + 1)) :
    mask ∈ PhaseWalk.reached (Bits.units n) (cs.map (⟨·, i⟩)) := by
  have hreached := reached_set_units hi h.controls_lt (2 ^ i)
  rw [set_units_self hi] at hreached
  rw [hreached]
  exact h.visits mask hlow hhigh

/-- The tours of some qubits, one after another. -/
def tours (order : WalkOrder) (qubits : List Nat) : List Cnot :=
  qubits.flatMap fun i => (controls order i).map (⟨·, i⟩)

theorem run_tours (order : WalkOrder) {qubits : List Nat} (h : ∀ i ∈ qubits, 0 < i ∧ i < n) :
    Cnot.run (Bits.units n) (tours order qubits) = Bits.units n := by
  induction qubits with
  | nil => rfl
  | cons i qubits ih =>
    obtain ⟨⟨hpos, hi⟩, hrest⟩ := List.forall_mem_cons.mp h
    rw [tours, List.flatMap_cons, Cnot.run_append, (tours_controls order hpos).run_units hi]
    exact ih hrest

theorem reached_append (parities : List Nat) (first second : List Cnot) :
    PhaseWalk.reached parities (first ++ second) =
      PhaseWalk.reached parities first ++
        PhaseWalk.reached (Cnot.run parities first) second := by
  induction first generalizing parities with
  | nil => rfl
  | cons g first ih => exact congrArg (_ :: ·) (ih _)

theorem mem_reached_tours (order : WalkOrder) {qubits : List Nat}
    (h : ∀ i ∈ qubits, 0 < i ∧ i < n) (hmem : i ∈ qubits) {mask : Nat} (hlow : 2 ^ i < mask)
    (hhigh : mask < 2 ^ (i + 1)) :
    mask ∈ PhaseWalk.reached (Bits.units n) (tours order qubits) := by
  induction qubits with
  | nil => cases hmem
  | cons j qubits ih =>
    obtain ⟨⟨hpos, hj⟩, hrest⟩ := List.forall_mem_cons.mp h
    have htours := tours_controls order hpos
    rw [tours, List.flatMap_cons, reached_append, htours.run_units hj]
    rcases List.mem_cons.mp hmem with rfl | hmem
    · exact List.mem_append_left _ (htours.mem_reached hj hlow hhigh)
    · exact List.mem_append_right _ (ih hrest hmem)

/-! ## The whole staircase -/

theorem gates_eq_tours (order : WalkOrder) (n : Nat) :
    gates order n = tours order (List.range' 1 (n - 1)).reverse := rfl

theorem mem_qubits : i ∈ (List.range' 1 (n - 1)).reverse ↔ 0 < i ∧ i < n := by
  rw [List.mem_reverse, List.mem_range'_1]
  omega

theorem wellFormed_gates (order : WalkOrder) (n : Nat) :
    ∀ g ∈ gates order n, g.WellFormed n := by
  intro g hg
  obtain ⟨i, hi, hg⟩ := List.mem_flatMap.mp hg
  obtain ⟨c, hc, rfl⟩ := List.mem_map.mp hg
  obtain ⟨hpos, hlt⟩ := mem_qubits.mp hi
  have hci := (tours_controls order hpos).controls_lt c hc
  exact ⟨Nat.lt_trans hci hlt, hlt, Nat.ne_of_lt hci⟩

/-- A staircase has no linear effect. -/
theorem run_gates (order : WalkOrder) (n : Nat) :
    Cnot.run (Bits.units n) (gates order n) = Bits.units n := by
  rw [gates_eq_tours]
  exact run_tours order fun _ hi => mem_qubits.mp hi

/-- A staircase reaches every parity that no single qubit has. -/
theorem unit_or_reached (order : WalkOrder) {mask : Nat} (hne : mask ≠ 0) (hlt : mask < 2 ^ n) :
    (∃ q < n, mask = 2 ^ q) ∨ mask ∈ PhaseWalk.reached (Bits.units n) (gates order n) := by
  have hlow : 2 ^ mask.log2 ≤ mask := Nat.log2_self_le hne
  have hlog : mask.log2 < n := (Nat.log2_lt hne).mpr hlt
  rcases Nat.eq_or_lt_of_le hlow with heq | hlow
  · exact .inl ⟨mask.log2, hlog, heq.symm⟩
  · have hpos : 0 < mask.log2 := by
      apply Nat.pos_of_ne_zero
      intro hzero
      have := Nat.lt_log2_self (n := mask)
      rw [hzero] at hlow this
      omega
    rw [gates_eq_tours]
    exact .inr (mem_reached_tours order (fun _ hi => mem_qubits.mp hi)
      (mem_qubits.mpr ⟨hpos, hlog⟩) hlow Nat.lt_log2_self)

end CircuitSynthesis.Staircase
