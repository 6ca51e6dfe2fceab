import CircuitSynthesis.Proofs.Cnot.RowOperations
import CircuitSynthesis.Synthesis.ParityNetwork

/-!
# Parities rewritten along CNOTs

While a network is built, the parities that are still to come are rewritten
to what the qubits carry, so that each keeps its meaning as a combination of
the original inputs (`combination_run_adjust`). Gates on one target flip the
same bits in all parities that contain the target. Folding the shared qubits
into a target is such a list of gates, known in closed form
(`foldShared_some`).
-/

namespace CircuitSynthesis.ParityNetwork

/-! ## Rewriting parities -/

/-- A parity in terms of what the qubits carry after a list of CNOTs. -/
def adjust (gates : List Cnot) (parity : Nat) : Nat :=
  gates.foldl (fun parity g => adjustParity g parity) parity

@[simp] theorem adjust_nil (parity : Nat) : adjust [] parity = parity := rfl

@[simp] theorem adjust_cons (g : Cnot) (gates : List Cnot) (parity : Nat) :
    adjust (g :: gates) parity = adjust gates (adjustParity g parity) := rfl

theorem adjust_append (first second : List Cnot) (parity : Nat) :
    adjust (first ++ second) parity = adjust second (adjust first parity) := List.foldl_append

theorem adjustAll_eq_map (gates : List Cnot) (parities : List Nat) :
    adjustAll gates parities = parities.map (adjust gates) := by
  induction gates generalizing parities with
  | nil => exact (List.map_id parities).symm
  | cons g rest ih =>
    show adjustAll rest (parities.map (adjustParity g)) = _
    rw [ih, List.map_map]
    rfl

variable {n : Nat} {rows : List Nat} {gates : List Cnot} {g : Cnot} {parity : Nat}

/-- A rewritten parity means the same combination. -/
theorem combination_act_adjustParity (hg : g.WellFormed n) (hlength : rows.length = n)
    (parity : Nat) : combination (Cnot.act rows g) (adjustParity g parity) =
      combination rows parity := by
  have htarget : g.target < rows.length := by rw [hlength]; exact hg.target_lt
  rw [Cnot.act, addRow, combination_set_xor htarget]
  unfold adjustParity
  cases hbit : parity.testBit g.target with
  | false => simp [hbit]
  | true =>
    have hsame : (parity ^^^ 2 ^ g.control).testBit g.target = true := by
      rw [Nat.testBit_xor, hbit, Nat.testBit_two_pow_of_ne hg.ne]
      rfl
    rw [if_pos rfl, hsame, if_pos rfl, combination_xor, combination_two_pow, Nat.xor_assoc,
      Nat.xor_self, Nat.xor_zero]

theorem combination_run_adjust (hgates : ∀ g ∈ gates, g.WellFormed n) (hlength : rows.length = n)
    (parity : Nat) :
    combination (Cnot.run rows gates) (adjust gates parity) = combination rows parity := by
  induction gates generalizing rows parity with
  | nil => rfl
  | cons g rest ih =>
    have hact : (Cnot.act rows g).length = n := by rw [Cnot.length_act, hlength]
    rw [Cnot.run_cons, adjust_cons, ih (fun g' hg' => hgates g' (List.mem_cons_of_mem _ hg')) hact,
      combination_act_adjustParity (hgates g List.mem_cons_self) hlength]

/-- Only the controls of the gates change in a parity. -/
theorem testBit_adjust_of_ne {i : Nat} (h : ∀ g ∈ gates, g.control ≠ i) (parity : Nat) :
    (adjust gates parity).testBit i = parity.testBit i := by
  induction gates generalizing parity with
  | nil => rfl
  | cons g rest ih =>
    rw [adjust_cons, ih fun g' hg' => h g' (List.mem_cons_of_mem _ hg')]
    unfold adjustParity
    split
    · rw [Nat.testBit_xor, Nat.testBit_two_pow_of_ne (h g List.mem_cons_self), Bool.xor_false]
    · rfl

theorem adjust_lt (hgates : ∀ g ∈ gates, g.control < n) (h : parity < 2 ^ n) :
    adjust gates parity < 2 ^ n := by
  apply Nat.lt_pow_two_of_testBit
  intro i hi
  rw [testBit_adjust_of_ne fun g hg => by have := hgates g hg; omega]
  exact Bits.testBit_eq_false_of_le h hi

/-- Gates on one target flip the same bits in all parities that contain it. -/
theorem testBit_adjust_of_target {t : Nat} (h : ∀ g ∈ gates, g.target = t ∧ g.control ≠ t)
    (ht : parity.testBit t = true) (i : Nat) :
    (adjust gates parity).testBit i =
      (parity.testBit i ^^ decide (gates.countP (·.control == i) % 2 = 1)) := by
  induction gates generalizing parity with
  | nil => simp
  | cons g rest ih =>
    obtain ⟨htarget, hne⟩ := h g List.mem_cons_self
    have hadjust : adjustParity g parity = parity ^^^ 2 ^ g.control := by
      rw [adjustParity, htarget, if_pos ht]
    have ht' : (parity ^^^ 2 ^ g.control).testBit t = true := by
      rw [Nat.testBit_xor, ht, Nat.testBit_two_pow_of_ne hne]
      rfl
    rw [adjust_cons, hadjust, ih (fun g' hg' => h g' (List.mem_cons_of_mem _ hg')) ht',
      Nat.testBit_xor, Nat.testBit_two_pow, List.countP_cons]
    by_cases hi : g.control = i
    · have hflip : decide ((rest.countP (·.control == i) + 1) % 2 = 1) =
          !decide (rest.countP (·.control == i) % 2 = 1) := by
        rw [← decide_not, decide_eq_decide]
        omega
      simp only [hi, beq_self_eq_true, if_true, hflip]
      cases parity.testBit i <;> cases decide (rest.countP (·.control == i) % 2 = 1) <;> rfl
    · simp [hi]

/-! ## Shared qubits -/

/-- The qubits other than the target that all parities use. -/
def shared (n t : Nat) (parities : List Nat) : List Nat :=
  (List.range n).filter fun j => decide (j ≠ t) && parities.all (·.testBit j)

theorem mem_shared {n t j : Nat} {parities : List Nat} :
    j ∈ shared n t parities ↔ j < n ∧ j ≠ t ∧ ∀ p ∈ parities, p.testBit j = true := by
  simp [shared]

/-- The shared qubits are folded into the target, one after another. -/
theorem foldShared_some (n t : Nat) (parities : List Nat) :
    foldShared n (some t) parities =
      ((shared n t parities).map (⟨·, t⟩),
        parities.map (adjust ((shared n t parities).map (⟨·, t⟩)))) := by
  show (List.range n).foldl (foldQubit t) ([], parities) = _
  unfold shared
  induction n with
  | zero => exact congrArg _ (List.map_id parities).symm
  | succ n ih =>
    rw [List.range_succ, List.foldl_append, ih, List.filter_append, List.map_append]
    generalize hfolds : (((List.range n).filter fun j =>
      decide (j ≠ t) && parities.all (·.testBit j)).map (⟨·, t⟩) : List Cnot) = folds
    -- Earlier folds do not touch bit `n`.
    have hall : (parities.map (adjust folds)).all (·.testBit n) = parities.all (·.testBit n) := by
      have hne : ∀ g ∈ folds, g.control ≠ n := by
        intro g hg
        rw [← hfolds] at hg
        obtain ⟨j, hj, rfl⟩ := List.mem_map.mp hg
        exact Nat.ne_of_lt (List.mem_range.mp (List.mem_filter.mp hj).1)
      rw [List.all_map]
      exact congrArg parities.all (funext fun p => testBit_adjust_of_ne hne p)
    rw [List.foldl_cons, List.foldl_nil, foldQubit, hall]
    by_cases hn : n ≠ t ∧ parities.all (·.testBit n) = true
    · rw [if_pos hn, List.filter_cons_of_pos (by simpa using hn), List.filter_nil, List.map_map]
      refine Prod.ext rfl (List.map_congr_left fun p _ => ?_)
      rw [List.map_singleton, adjust_append]
      rfl
    · rw [if_neg hn, List.filter_cons_of_neg (by simpa using hn), List.filter_nil, List.map_nil,
        List.append_nil]

/-- Folding rewrites the parities to its gates, which add qubits that all
parities use to the target. -/
theorem of_foldShared_eq {target : Option Nat} {parities parities' : List Nat} {folds : List Cnot}
    (h : foldShared n target parities = (folds, parities')) :
    parities' = parities.map (adjust folds) ∧ ∀ g ∈ folds, target = some g.target ∧
      g.control < n ∧ g.control ≠ g.target ∧ ∀ p ∈ parities, p.testBit g.control = true := by
  cases target with
  | none =>
    obtain ⟨rfl, rfl⟩ := Prod.mk.inj h
    exact ⟨(List.map_id parities).symm, by simp⟩
  | some t =>
    rw [foldShared_some] at h
    obtain ⟨rfl, rfl⟩ := Prod.mk.inj h
    refine ⟨rfl, fun g hg => ?_⟩
    obtain ⟨j, hj, rfl⟩ := List.mem_map.mp hg
    obtain ⟨hjn, hjt, hall⟩ := mem_shared.mp hj
    exact ⟨rfl, hjn, hjt, hall⟩

end CircuitSynthesis.ParityNetwork
