import CircuitSynthesis.Proofs.ParityNetwork.Rewriting
import CircuitSynthesis.Proofs.PhaseWalk.Turns

/-!
# Parity networks cover their parities

The branches of the recursion know more and more bits of their parities
(`Branch`): without a target all bits outside the open rows are zero, and with
a target all parities of the branch contain it and agree outside the open
rows. Once no row is open, folding the shared qubits leaves every parity on
the target alone, so each parity is carried by some qubit at some moment
(`cover_carries`).
-/

namespace CircuitSynthesis.ParityNetwork

variable {n row : Nat} {rows : List Nat} {target : Option Nat} {parities : List Nat}
  {gates : List Cnot} {parity : Nat}

/-! ## The gates of a network -/

/-- The gate joins two different qubits within a set, and acts on the target
if there is one. -/
structure GateWithin (within : Nat → Prop) (target : Option Nat) (g : Cnot) : Prop where
  within_control : within g.control
  within_target : within g.target
  ne : g.control ≠ g.target
  onTarget : ∀ t ∈ target, g.target = t

theorem GateWithin.wellFormed {g : Cnot} (h : GateWithin (· < n) target g) : g.WellFormed n :=
  ⟨h.within_control, h.within_target, h.ne⟩

theorem adjust_within {within : Nat → Prop} (hgates : ∀ g ∈ gates, within g.control)
    (h : ∀ j, parity.testBit j = true → within j) :
    ∀ j, (adjust gates parity).testBit j = true → within j := by
  intro j hj
  by_cases hmem : ∃ g ∈ gates, g.control = j
  · obtain ⟨g, hg, rfl⟩ := hmem
    exact hgates g hg
  · rw [testBit_adjust_of_ne fun g hg he => hmem ⟨g, hg, he⟩] at hj
    exact h j hj

theorem folds_within (within : Nat → Prop) {folds : List Cnot} {parities' : List Nat}
    (hne : parities ≠ []) (hfold : foldShared n target parities = (folds, parities'))
    (htarget : ∀ t ∈ target, within t)
    (hparities : ∀ p ∈ parities, ∀ j, p.testBit j = true → within j) :
    ∀ g ∈ folds, GateWithin within target g := by
  intro g hg
  obtain ⟨p, hp⟩ := List.exists_mem_of_ne_nil parities hne
  obtain ⟨heq, -, hcontrol, hall⟩ := (of_foldShared_eq hfold).2 g hg
  refine ⟨hparities p hp _ (hall p hp), htarget _ heq, hcontrol, fun t ht => ?_⟩
  rw [heq] at ht
  exact Option.some.inj ht

theorem mem_ones_or_zeros {ones zeros : List Nat}
    (h : parities.partition (·.testBit row) = (ones, zeros)) :
    (∀ p, p ∈ ones ↔ p ∈ parities ∧ p.testBit row = true) ∧
      ∀ p, p ∈ zeros ↔ p ∈ parities ∧ p.testBit row = false := by
  rw [List.partition_eq_filter_filter] at h
  obtain ⟨rfl, rfl⟩ := Prod.mk.inj h
  simp

/-- A network stays within a set of qubits that holds its rows, its target
and the bits of its parities. -/
theorem cover_within (within : Nat → Prop) (hrows : ∀ r ∈ rows, within r)
    (htarget : ∀ t ∈ target, within t)
    (hparities : ∀ p ∈ parities, ∀ j, p.testBit j = true → within j) :
    ∀ g ∈ cover n rows target parities, GateWithin within target g := by
  fun_induction cover n rows target parities with
  | case1 rows target parities hempty => exact fun _ hg => absurd hg List.not_mem_nil
  | case2 rows target parities hne folds parities' hfold hsplit =>
    exact folds_within within (by simpa using hne) hfold htarget hparities
  | case3 rows target parities hne folds parities' hfold row hsplit _ ones zeros hpart before
      after ihzeros ihones =>
    have hfolds := folds_within within (by simpa using hne) hfold htarget hparities
    have hmem := mem_ones_or_zeros hpart
    have hrow : within row := hrows row (splitRow?_mem hsplit)
    have hopen : ∀ r ∈ rows.erase row, within r := fun r hr => hrows r (List.mem_of_mem_erase hr)
    have hfolded : ∀ p ∈ parities', ∀ j, p.testBit j = true → within j := by
      rw [(of_foldShared_eq hfold).1]
      refine List.forall_mem_map.mpr fun q hq => ?_
      exact adjust_within (fun g hg => (hfolds g hg).within_control) (hparities q hq)
    have hbefore : ∀ g ∈ before, GateWithin within target g :=
      ihzeros hopen htarget fun p hp => hfolded p ((hmem.2 p).mp hp).1
    have htarget' : ∀ t ∈ (target <|> some row), within t := by
      cases target with
      | none => exact fun t ht => Option.some.inj ht ▸ hrow
      | some t => exact htarget
    have hafter : ∀ g ∈ after, GateWithin within (target <|> some row) g := by
      refine ihones hopen htarget' ?_
      rw [adjustAll_eq_map]
      refine List.forall_mem_map.mpr fun q hq => ?_
      exact adjust_within (fun g hg => (hbefore g hg).within_control)
        (hfolded q ((hmem.1 q).mp hq).1)
    intro g hg
    rcases List.mem_append.mp hg with hg | hg
    · rcases List.mem_append.mp hg with hg | hg
      · exact hfolds g hg
      · exact hbefore g hg
    · have hg' := hafter g hg
      refine ⟨hg'.within_control, hg'.within_target, hg'.ne, fun t ht => hg'.onTarget t ?_⟩
      rw [Option.mem_def.mp ht]
      rfl

/-! ## Branches -/

/-- What the parities of a branch are known to have in common. -/
structure Branch (n : Nat) (rows : List Nat) (target : Option Nat) (parities : List Nat) :
    Prop where
  nodup : rows.Nodup
  rows_lt : ∀ r ∈ rows, r < n
  target_lt : ∀ t ∈ target, t < n
  lt : ∀ p ∈ parities, p < 2 ^ n
  untargeted : target = none → ∀ p ∈ parities, p ≠ 0 ∧ ∀ j ∉ rows, p.testBit j = false
  targeted : ∀ t ∈ target, ∀ p ∈ parities, p.testBit t = true ∧
    ∀ q ∈ parities, ∀ j ∉ rows, j ≠ t → p.testBit j = q.testBit j

theorem Branch.bits_lt (h : Branch n rows target parities) :
    ∀ p ∈ parities, ∀ j, p.testBit j = true → j < n := fun p hp _ hj =>
  Bits.lt_of_testBit (h.lt p hp) hj

theorem Branch.cover_within (h : Branch n rows target parities) :
    ∀ g ∈ cover n rows target parities, GateWithin (· < n) target g :=
  ParityNetwork.cover_within _ h.rows_lt h.target_lt h.bits_lt

theorem Branch.wellFormed_folds (h : Branch n rows target parities) {folds : List Cnot}
    {parities' : List Nat} (hne : parities ≠ [])
    (hfold : foldShared n target parities = (folds, parities')) :
    ∀ g ∈ folds, g.WellFormed n := fun g hg =>
  (folds_within (· < n) hne hfold h.target_lt h.bits_lt g hg).wellFormed

/-- Gates on the target change all parities of a branch alike. -/
theorem Branch.adjust_target {t : Nat} (h : Branch n rows (some t) parities)
    (hgates : ∀ g ∈ gates, GateWithin (· < n) (some t) g) :
    Branch n rows (some t) (parities.map (adjust gates)) := by
  have htarget : ∀ g ∈ gates, g.target = t ∧ g.control ≠ t := by
    intro g hg
    have heq : g.target = t := (hgates g hg).onTarget t rfl
    exact ⟨heq, heq ▸ (hgates g hg).ne⟩
  refine ⟨h.nodup, h.rows_lt, h.target_lt, ?_, fun hnone => absurd hnone (by simp), ?_⟩
  · refine List.forall_mem_map.mpr fun p hp => ?_
    exact adjust_lt (fun g hg => (hgates g hg).within_control) (h.lt p hp)
  · rintro _ ⟨⟩
    refine List.forall_mem_map.mpr fun p hp => ?_
    obtain ⟨hpt, hagree⟩ := h.targeted t rfl p hp
    refine ⟨?_, List.forall_mem_map.mpr fun q hq j hj hjt => ?_⟩
    · rw [testBit_adjust_of_ne fun g hg => (htarget g hg).2]
      exact hpt
    · have hqt := (h.targeted t rfl q hq).1
      rw [testBit_adjust_of_target htarget hpt, testBit_adjust_of_target htarget hqt,
        hagree q hq j hj hjt]

theorem Branch.fold (h : Branch n rows target parities) {folds : List Cnot}
    {parities' : List Nat} (hne : parities ≠ [])
    (hfold : foldShared n target parities = (folds, parities')) :
    Branch n rows target parities' := by
  cases target with
  | none =>
    obtain ⟨-, rfl⟩ := Prod.mk.inj hfold
    exact h
  | some t =>
    rw [(of_foldShared_eq hfold).1]
    exact h.adjust_target (folds_within (· < n) hne hfold h.target_lt h.bits_lt)

/-- A part of a branch that agrees on a row no longer needs the row open. -/
theorem Branch.close {part : List Nat} {value : Bool} (h : Branch n rows target parities)
    (hsub : ∀ p ∈ part, p ∈ parities ∧ p.testBit row = value)
    (hvalue : target = none → value = false) : Branch n (rows.erase row) target part := by
  have hopen : ∀ j ∉ rows.erase row, j ≠ row → j ∉ rows := fun j hj hne hmem =>
    hj ((List.mem_erase_of_ne hne).mpr hmem)
  refine ⟨h.nodup.erase row, fun r hr => h.rows_lt r (List.mem_of_mem_erase hr), h.target_lt,
    fun p hp => h.lt p (hsub p hp).1, fun hnone p hp => ?_, fun t ht p hp => ?_⟩
  · obtain ⟨hnonzero, hzero⟩ := h.untargeted hnone p (hsub p hp).1
    refine ⟨hnonzero, fun j hj => ?_⟩
    by_cases hjr : j = row
    · rw [hjr, (hsub p hp).2, hvalue hnone]
    · exact hzero j (hopen j hj hjr)
  · obtain ⟨hpt, hagree⟩ := h.targeted t ht p (hsub p hp).1
    refine ⟨hpt, fun q hq j hj hjt => ?_⟩
    by_cases hjr : j = row
    · rw [hjr, (hsub p hp).2, (hsub q hq).2]
    · exact hagree q (hsub q hq).1 j (hopen j hj hjr) hjt

/-- The parities with the splitting row make it their target when there is
none yet: the gates before them do not touch the bits outside the open rows. -/
theorem Branch.open_target {part : List Nat} (h : Branch n rows none parities) (hrow : row ∈ rows)
    (hsub : ∀ p ∈ part, p ∈ parities ∧ p.testBit row = true)
    (hgates : ∀ g ∈ gates, GateWithin (· ∈ rows.erase row) none g) :
    Branch n (rows.erase row) (some row) (part.map (adjust gates)) := by
  have hsame : ∀ p, ∀ j ∉ rows.erase row, (adjust gates p).testBit j = p.testBit j := by
    intro p j hj
    refine testBit_adjust_of_ne (fun g hg he => hj ?_) p
    rw [← he]
    exact (hgates g hg).within_control
  have hclosed : row ∉ rows.erase row := fun hmem => (h.nodup.mem_erase_iff.mp hmem).1 rfl
  have hlt : ∀ r ∈ rows.erase row, r < n := fun r hr => h.rows_lt r (List.mem_of_mem_erase hr)
  have hzero : ∀ p ∈ part, ∀ j ∉ rows.erase row, j ≠ row → p.testBit j = false := by
    intro p hp j hj hjr
    exact (h.untargeted rfl p (hsub p hp).1).2 j fun hmem =>
      hj ((List.mem_erase_of_ne hjr).mpr hmem)
  refine ⟨h.nodup.erase row, hlt, ?_, ?_, fun hnone => absurd hnone (by simp), ?_⟩
  · rintro _ ⟨⟩
    exact h.rows_lt row hrow
  · refine List.forall_mem_map.mpr fun p hp => ?_
    exact adjust_lt (fun g hg => hlt _ (hgates g hg).within_control) (h.lt p (hsub p hp).1)
  · rintro _ ⟨⟩
    refine List.forall_mem_map.mpr fun p hp => ?_
    refine ⟨?_, List.forall_mem_map.mpr fun q hq j hj hjr => ?_⟩
    · rw [hsame p row hclosed]
      exact (hsub p hp).2
    · rw [hsame p j hj, hsame q j hj, hzero p hp j hj hjr, hzero q hq j hj hjr]

/-- When no row is open, folding leaves the target alone. -/
theorem Branch.adjust_shared {t : Nat} (h : Branch n [] (some t) parities) (hp : parity ∈ parities) :
    adjust ((shared n t parities).map (⟨·, t⟩)) parity = 2 ^ t := by
  obtain ⟨hpt, hagree⟩ := h.targeted t rfl parity hp
  have htarget : ∀ g ∈ (shared n t parities).map (⟨·, t⟩), Cnot.target g = t ∧ g.control ≠ t :=
    List.forall_mem_map.mpr fun j hj => ⟨rfl, (mem_shared.mp hj).2.1⟩
  apply Nat.eq_of_testBit_eq
  intro i
  rw [Nat.testBit_two_pow]
  by_cases hit : t = i
  · rw [testBit_adjust_of_ne fun g hg => hit ▸ (htarget g hg).2, ← hit, hpt, decide_eq_true rfl]
  · -- Bit `i` is in all parities of the branch or in none.
    have hcount : ((shared n t parities).map (⟨·, t⟩ : Nat → Cnot)).countP (·.control == i) =
        (shared n t parities).count i := by
      rw [List.countP_map]
      rfl
    rw [testBit_adjust_of_target htarget hpt, hcount, decide_eq_false hit]
    cases hbit : parity.testBit i with
    | false =>
      have hnot : i ∉ shared n t parities := fun hmem => by
        rw [(mem_shared.mp hmem).2.2 parity hp] at hbit
        cases hbit
      rw [List.count_eq_zero_of_not_mem hnot]
      rfl
    | true =>
      have hmem : i ∈ shared n t parities := by
        refine mem_shared.mpr ⟨Bits.lt_of_testBit (h.lt parity hp) hbit, Ne.symm hit, ?_⟩
        intro q hq
        rw [← hagree q hq i List.not_mem_nil (Ne.symm hit)]
        exact hbit
      have hnodup : (shared n t parities).Nodup := List.nodup_range.filter _
      rw [List.count_eq_one_of_mem hnodup hmem]
      rfl

/-! ## Coverage -/

/-- At some moment along the gates some qubit carries the parity. -/
def Carried (state : List Nat) (gates : List Cnot) (parity : Nat) : Prop :=
  ∃ first second, gates = first ++ second ∧
    ∃ q < state.length, (Cnot.run state first).getD q 0 = parity

variable {state : List Nat}

theorem Carried.append_right (h : Carried state gates parity) (more : List Cnot) :
    Carried state (gates ++ more) parity := by
  obtain ⟨first, second, rfl, hcarried⟩ := h
  exact ⟨first, second ++ more, List.append_assoc first second more, hcarried⟩

theorem Carried.append_left {before : List Cnot}
    (h : Carried (Cnot.run state before) gates parity) : Carried state (before ++ gates) parity := by
  obtain ⟨first, second, rfl, q, hq, he⟩ := h
  rw [Cnot.length_run] at hq
  refine ⟨before ++ first, second, (List.append_assoc before first second).symm, q, hq, ?_⟩
  rw [Cnot.run_append]
  exact he

/-- A parity that is carried was there from the start or is reached by a gate. -/
theorem Carried.mem_or_reached (h : Carried state gates parity)
    (hgates : ∀ g ∈ gates, g.WellFormed n) (hlength : state.length = n) :
    parity ∈ state ∨ parity ∈ PhaseWalk.reached state gates := by
  induction gates generalizing state with
  | nil =>
    obtain ⟨first, second, hnil, q, hq, rfl⟩ := h
    obtain ⟨rfl, -⟩ := List.append_eq_nil_iff.mp hnil.symm
    rw [Cnot.run_nil, List.getD_eq_getElem _ _ hq]
    exact .inl (List.getElem_mem hq)
  | cons g rest ih =>
    have hg : g.WellFormed n := hgates g List.mem_cons_self
    obtain ⟨first, second, hsplit, q, hq, he⟩ := h
    cases first with
    | nil =>
      rw [Cnot.run_nil, List.getD_eq_getElem _ _ hq] at he
      exact .inl (he ▸ List.getElem_mem hq)
    | cons g' first =>
      obtain ⟨rfl, hrest⟩ := List.cons.inj hsplit
      have hact : (Cnot.act state g).length = n := by rw [Cnot.length_act, hlength]
      have hcarried : Carried (Cnot.act state g) rest parity :=
        ⟨first, second, hrest, q, by omega, he⟩
      rcases ih hcarried (fun g' hg' => hgates g' (List.mem_cons_of_mem _ hg')) hact with hin | hin
      · -- Only the target of the gate can be new.
        have htarget : g.target < state.length := by rw [hlength]; exact hg.target_lt
        have hnew : (Cnot.act state g).getD g.target 0 =
            state.getD g.target 0 ^^^ state.getD g.control 0 := by
          rw [Cnot.getD_act htarget, if_pos rfl]
        rcases List.mem_or_eq_of_mem_set hin with hin | heq
        · exact .inl hin
        · exact .inr (List.mem_cons.mpr (.inl (heq.trans hnew.symm)))
      · exact .inr (List.mem_cons_of_mem _ hin)

theorem splitRow?_eq_none (h : splitRow? parities rows = none) : rows = [] := by
  cases rows with
  | nil => rfl
  | cons row rest =>
    rw [splitRow?] at h
    split at h
    · split at h <;> cases h
    · cases h

/-- **Coverage.** From any state of the qubits, every parity of a branch is
carried by some qubit at some moment. -/
theorem cover_carries (h : Branch n rows target parities) :
    ∀ state : List Nat, state.length = n → ∀ p ∈ parities,
      Carried state (cover n rows target parities) (combination state p) := by
  fun_induction cover n rows target parities with
  | case1 rows target parities hempty =>
    rw [List.isEmpty_iff] at hempty
    exact fun _ _ p hp => absurd (hempty ▸ hp) List.not_mem_nil
  | case2 rows target parities hne folds parities' hfold hsplit =>
    intro state hstate p hp
    have hwf := h.wellFormed_folds (by simpa using hne) hfold
    obtain rfl := splitRow?_eq_none hsplit
    cases target with
    | none =>
      -- No bit is left for the parity, but it is not zero.
      obtain ⟨hnonzero, hzero⟩ := h.untargeted rfl p hp
      refine absurd (Nat.eq_of_testBit_eq fun j => ?_) hnonzero
      rw [hzero j List.not_mem_nil, Nat.zero_testBit]
    | some t =>
      rw [foldShared_some] at hfold
      obtain ⟨rfl, -⟩ := Prod.mk.inj hfold
      refine ⟨_, [], (List.append_nil _).symm, t, by rw [hstate]; exact h.target_lt t rfl, ?_⟩
      rw [← combination_two_pow, ← h.adjust_shared hp, combination_run_adjust hwf hstate]
  | case3 rows target parities hne folds parities' hfold row hsplit _ ones zeros hpart before
      after ihzeros ihones =>
    have hfolds := h.wellFormed_folds (by simpa using hne) hfold
    have hfolded : Branch n rows target parities' := h.fold (by simpa using hne) hfold
    have hmem := mem_ones_or_zeros hpart
    have hzeros : Branch n (rows.erase row) target zeros :=
      hfolded.close (fun p hp => (hmem.2 p).mp hp) fun _ => rfl
    have hbefore : ∀ g ∈ before, GateWithin (· < n) target g := hzeros.cover_within
    have hones : Branch n (rows.erase row) (target <|> some row) (adjustAll before ones) := by
      rw [adjustAll_eq_map]
      cases target with
      | none =>
        refine hfolded.open_target (splitRow?_mem hsplit) (fun p hp => (hmem.1 p).mp hp) ?_
        exact ParityNetwork.cover_within _ (fun _ hr => hr) (by simp) fun p hp j hj => by
          by_contra hclosed
          rw [(hzeros.untargeted rfl p hp).2 j hclosed] at hj
          cases hj
      | some t =>
        exact (hfolded.close (fun p hp => (hmem.1 p).mp hp) (by simp)).adjust_target hbefore
    intro state hstate p hp
    have hp' : adjust folds p ∈ parities' := by
      rw [(of_foldShared_eq hfold).1]
      exact List.mem_map_of_mem hp
    have hstate' : (Cnot.run state folds).length = n := by rw [Cnot.length_run, hstate]
    rw [← combination_run_adjust hfolds hstate p]
    cases hbit : (adjust folds p).testBit row with
    | false =>
      have hcarried := ihzeros hzeros _ hstate' _ ((hmem.2 _).mpr ⟨hp', hbit⟩)
      exact hcarried.append_left.append_right after
    | true =>
      have hwf : ∀ g ∈ before, g.WellFormed n := fun g hg => (hbefore g hg).wellFormed
      have hmapped : adjust before (adjust folds p) ∈ adjustAll before ones := by
        rw [adjustAll_eq_map]
        exact List.mem_map_of_mem ((hmem.1 _).mpr ⟨hp', hbit⟩)
      have hcarried := ihones hones (Cnot.run (Cnot.run state folds) before)
        (by rw [Cnot.length_run, hstate']) _ hmapped
      rw [combination_run_adjust hwf hstate', ← Cnot.run_append] at hcarried
      exact hcarried.append_left

/-- Parities that are not zero form a branch with all rows open. -/
theorem branch_range (h : ∀ p ∈ parities, p ≠ 0 ∧ p < 2 ^ n) :
    Branch n (List.range n) none parities := by
  refine ⟨List.nodup_range, fun r hr => List.mem_range.mp hr, by simp, fun p hp => (h p hp).2,
    fun _ p hp => ⟨(h p hp).1, fun j hj => ?_⟩, by simp⟩
  exact Bits.testBit_eq_false_of_le (h p hp).2 (by simpa using hj)

theorem wellFormed_gates (h : ∀ p ∈ parities, p ≠ 0 ∧ p < 2 ^ n) :
    ∀ g ∈ ParityNetwork.gates n parities, g.WellFormed n := fun g hg =>
  ((branch_range h).cover_within g hg).wellFormed

/-- The gates of a network reach every parity that no single qubit has. -/
theorem unit_or_reached (h : ∀ p ∈ parities, p ≠ 0 ∧ p < 2 ^ n) (hp : parity ∈ parities) :
    (∃ q < n, parity = 2 ^ q) ∨
      parity ∈ PhaseWalk.reached (Bits.units n) (ParityNetwork.gates n parities) := by
  have hcarried := cover_carries (branch_range h) (Bits.units n) (Bits.length_units n) parity hp
  rw [combination_units (h parity hp).2] at hcarried
  refine (hcarried.mem_or_reached (wellFormed_gates h) (Bits.length_units n)).imp_left ?_
  intro hunit
  obtain ⟨q, hq, rfl⟩ := List.mem_map.mp hunit
  exact ⟨q, List.mem_range.mp hq, rfl⟩

end CircuitSynthesis.ParityNetwork
