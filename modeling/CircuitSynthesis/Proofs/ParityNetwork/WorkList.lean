import CircuitSynthesis.Proofs.ParityNetwork.Coverage
import Mathlib.Logic.Function.Iterate

/-!
# Parity networks from a work list

The recursion that covers the parities can be run with a stack of branches that
still wait (`WorkList.turn`): the branch on top is folded, every gate rewrites
the parities of all waiting branches, and a split puts two branches back. A
split opens fewer rows for the same parities, so the weight of the stack falls
with every turn (`WorkList.weight_turn_lt`). The gates emitted so far followed
by those that the stack stands for stay the same (`WorkList.total_turn`). So
the list is worked off after a number of turns that is known from the start,
and what it has emitted is the network of the recursion (`gates_cover_masks`).
-/

namespace CircuitSynthesis.ParityNetwork

variable {n : Nat} {rows : List Nat} {target : Option Nat} {parities folded : List Nat}
  {folds : List Cnot}

/-! ## The recursion, case by case -/

theorem cover_nil (n : Nat) (rows : List Nat) (target : Option Nat) :
    cover n rows target [] = [] := by
  rw [cover]
  rfl

theorem cover_of_no_row (hne : parities ≠ [])
    (hfold : foldShared n target parities = (folds, folded))
    (hrow : splitRow? folded rows = none) : cover n rows target parities = folds := by
  rw [cover, if_neg (by simpa using hne)]
  simp only [hfold]
  split
  · rfl
  · next row hsome =>
    rw [hfold] at hsome
    cases hrow.symm.trans hsome

theorem cover_of_row {row : Nat} {ones zeros : List Nat} (hne : parities ≠ [])
    (hfold : foldShared n target parities = (folds, folded))
    (hrow : splitRow? folded rows = some row)
    (hpart : folded.partition (·.testBit row) = (ones, zeros)) :
    cover n rows target parities =
      folds ++ (cover n (rows.erase row) target zeros ++
        cover n (rows.erase row) (target <|> some row)
          (adjustAll (cover n (rows.erase row) target zeros) ones)) := by
  rw [cover, if_neg (by simpa using hne), ← List.append_assoc]
  simp only [hfold]
  split
  · next hnone =>
    rw [hfold] at hnone
    cases hrow.symm.trans hnone
  · next row' hsome =>
    rw [hfold] at hsome
    obtain rfl := Option.some.inj (hrow.symm.trans hsome)
    simp only [hpart]

/-! ## Waiting branches -/

/-- A branch that waits to be covered. -/
structure Pending where
  rows : List Nat
  target : Option Nat
  parities : List Nat

namespace Pending

/-- The gates that the recursion finds for the branch. -/
def cover (n : Nat) (b : Pending) : List Cnot := ParityNetwork.cover n b.rows b.target b.parities

/-- The branch in terms of what the qubits carry after a list of CNOTs. -/
def adjust (gates : List Cnot) (b : Pending) : Pending :=
  { b with parities := adjustAll gates b.parities }

theorem adjust_adjust (first second : List Cnot) (b : Pending) :
    (b.adjust first).adjust second = b.adjust (first ++ second) := by
  simp only [adjust, adjustAll, List.foldl_append]

/-- The gates that fold the shared qubits of the branch, and the branches that
it is split into: the parities without the splitting row come first. -/
def split (n : Nat) (b : Pending) : List Cnot × List Pending :=
  if b.parities.isEmpty then ([], [])
  else
    let (folds, parities) := foldShared n b.target b.parities
    match splitRow? parities b.rows with
    | none => (folds, [])
    | some row =>
      let (ones, zeros) := parities.partition (·.testBit row)
      let rows := b.rows.erase row
      (folds, [⟨rows, b.target, zeros⟩, ⟨rows, b.target <|> some row, ones⟩])

/-- The gates of waiting branches after those that are done, each branch
adjusted to what comes before it. -/
def coverAll (n : Nat) (done : List Cnot) (stack : List Pending) : List Cnot :=
  stack.foldl (fun done b => done ++ (b.adjust done).cover n) done

/-- Gates that are done may as well be in the branches. -/
theorem coverAll_append (first done : List Cnot) (stack : List Pending) :
    coverAll n (first ++ done) stack =
      first ++ coverAll n done (stack.map (·.adjust first)) := by
  induction stack generalizing done with
  | nil => rfl
  | cons b below ih =>
    show coverAll n (first ++ done ++ _) below = _
    rw [← adjust_adjust, List.append_assoc, ih]
    rfl

/-- The branches that a branch is split into stand for the rest of its gates. -/
theorem cover_eq_split (b : Pending) :
    b.cover n = (b.split n).1 ++ coverAll n [] (b.split n).2 := by
  fun_cases split n b with
  | case1 hempty =>
    rw [cover, List.isEmpty_iff.mp hempty]
    exact cover_nil n b.rows b.target
  | case2 hempty folds folded hfold hrow =>
    rw [show coverAll n [] [] = [] from rfl, List.append_nil]
    exact cover_of_no_row (by simpa using hempty) hfold hrow
  | case3 hempty folds folded hfold row hrow ones zeros hpart rows =>
    exact cover_of_row (by simpa using hempty) hfold hrow hpart

/-- A bound on the number of turns that the branch takes. -/
def weight (b : Pending) : Nat := 1 + 2 * (b.rows.length * b.parities.length)

@[simp] theorem weight_adjust (gates : List Cnot) (b : Pending) :
    (b.adjust gates).weight = b.weight := by
  simp [weight, adjust, adjustAll_eq_map]

/-- The parts of a branch have its parities between them, and a row less. -/
theorem weight_split_lt (b : Pending) : ((b.split n).2.map weight).sum < b.weight := by
  fun_cases split n b with
  | case1 hempty => exact Nat.lt_add_right _ Nat.zero_lt_one
  | case2 hempty folds folded hfold hrow => exact Nat.lt_add_right _ Nat.zero_lt_one
  | case3 hempty folds folded hfold row hrow ones zeros hpart rows =>
    have hlength : ones.length + zeros.length = b.parities.length := by
      rw [List.partition_eq_filter_filter] at hpart
      obtain ⟨rfl, rfl⟩ := Prod.mk.inj hpart
      have hfolded : folded.length = b.parities.length := by
        rw [(of_foldShared_eq hfold).1, List.length_map]
      rw [← hfolded]
      exact (List.length_eq_length_filter_add _).symm
    have hpos : 0 < b.parities.length := List.length_pos_of_ne_nil (by simpa using hempty)
    obtain ⟨k, hk⟩ : ∃ k, b.rows.length = k + 1 :=
      Nat.exists_eq_add_one.mpr (List.length_pos_of_mem (splitRow?_mem hrow))
    have hrows : rows.length = k := by
      rw [List.length_erase_of_mem (splitRow?_mem hrow), hk, Nat.add_sub_cancel]
    show 1 + 2 * (rows.length * zeros.length) + (1 + 2 * (rows.length * ones.length) + 0) <
      1 + 2 * (b.rows.length * b.parities.length)
    rw [hrows, hk, ← hlength, Nat.succ_mul k, Nat.mul_add k]
    omega

end Pending

/-! ## Turns -/

/-- The gates emitted so far and the branches that wait, the next one first. -/
structure WorkList where
  emitted : List Cnot
  stack : List Pending

namespace WorkList

/-- All parities wait in one branch. -/
def start (n : Nat) (parities : List Nat) : WorkList := ⟨[], [⟨List.range n, none, parities⟩]⟩

/-- The branch on top is split, and its gates rewrite the branches below. -/
def turn (n : Nat) : WorkList → WorkList
  | ⟨emitted, []⟩ => ⟨emitted, []⟩
  | ⟨emitted, b :: below⟩ =>
    let (folds, parts) := b.split n
    ⟨emitted ++ folds, parts ++ below.map (·.adjust folds)⟩

/-- All gates, emitted or not. -/
def total (n : Nat) (w : WorkList) : List Cnot := w.emitted ++ Pending.coverAll n [] w.stack

def weight (w : WorkList) : Nat := (w.stack.map Pending.weight).sum

theorem turn_cons (n : Nat) (emitted : List Cnot) (b : Pending) (below : List Pending) :
    turn n ⟨emitted, b :: below⟩ =
      ⟨emitted ++ (b.split n).1, (b.split n).2 ++ below.map (·.adjust (b.split n).1)⟩ := rfl

/-- **One turn.** What was emitted and what remains stay the same together. -/
theorem total_turn (w : WorkList) : (w.turn n).total n = w.total n := by
  obtain ⟨emitted, stack⟩ := w
  cases stack with
  | nil => rfl
  | cons b below =>
    show (turn n ⟨emitted, b :: below⟩).total n =
      emitted ++ Pending.coverAll n (b.cover n) below
    rw [turn_cons, total, Pending.cover_eq_split, Pending.coverAll_append, List.append_assoc]
    simp only [Pending.coverAll, List.foldl_append]

/-- **Termination.** Every turn takes weight off the stack. -/
theorem weight_turn_lt {w : WorkList} (h : w.stack ≠ []) : (w.turn n).weight < w.weight := by
  obtain ⟨emitted, stack⟩ := w
  cases stack with
  | nil => exact absurd rfl h
  | cons b below =>
    have hsplit := b.weight_split_lt (n := n)
    have hbelow : (below.map (·.adjust (b.split n).1)).map Pending.weight =
        below.map Pending.weight := by
      rw [List.map_map]
      exact List.map_congr_left fun b' _ => b'.weight_adjust _
    rw [turn_cons, weight, weight, List.map_append, List.sum_append, hbelow, List.map_cons,
      List.sum_cons]
    omega

/-- **Whole runs.** After as many turns as the stack weighs, it is empty and
all gates are emitted. -/
theorem iterate_turn (k : Nat) (w : WorkList) (hk : w.weight ≤ k) :
    (turn n)^[k] w = ⟨w.total n, []⟩ := by
  have hdone : ∀ emitted, total n ⟨emitted, []⟩ = emitted := List.append_nil
  induction k generalizing w with
  | zero =>
    obtain ⟨emitted, stack⟩ := w
    cases stack with
    | nil => rw [hdone]; rfl
    | cons b below =>
      simp only [weight, List.map_cons, List.sum_cons, Pending.weight] at hk
      omega
  | succ k ih =>
    rw [Function.iterate_succ_apply, ← total_turn w]
    apply ih
    by_cases hstack : w.stack = []
    · obtain ⟨emitted, stack⟩ := w
      obtain rfl : stack = [] := hstack
      exact Nat.zero_le k
    · have := weight_turn_lt (n := n) hstack
      omega

theorem total_start (n : Nat) (parities : List Nat) :
    (start n parities).total n = gates n parities := rfl

theorem weight_start (n : Nat) (parities : List Nat) :
    (start n parities).weight = 1 + 2 * (n * parities.length) := by
  simp [start, weight, Pending.weight]

end WorkList

/-! ## Coverage -/

/-- The parities that are reached are those that a gate leaves on its target. -/
theorem exists_of_mem_reached {state : List Nat} {gates : List Cnot} {parity : Nat}
    (h : parity ∈ PhaseWalk.reached state gates) :
    ∃ first g rest, gates = first ++ g :: rest ∧
      (Cnot.run state (first ++ [g])).getD g.target 0 = parity := by
  induction gates generalizing state with
  | nil => exact absurd h List.not_mem_nil
  | cons g rest ih =>
    rcases List.mem_cons.mp h with rfl | h
    · exact ⟨[], g, rest, rfl, rfl⟩
    · obtain ⟨first, g', rest', rfl, hrun⟩ := ih h
      exact ⟨g :: first, g', rest', rfl, hrun⟩

/-- **Parity networks.** For masks that are not zero and fit `n` qubits, the
work list is empty after at most one turn and two more for each qubit and mask,
and has then emitted the network. Each gate joins two different qubits. Every
mask that no single qubit has from the start is what some gate leaves on its
target. -/
theorem gates_cover_masks (n : Nat) (masks : List Nat) (h : ∀ p ∈ masks, p ≠ 0 ∧ p < 2 ^ n) :
    (WorkList.turn n)^[1 + 2 * (n * masks.length)] (.start n masks) = ⟨gates n masks, []⟩ ∧
    (∀ g ∈ gates n masks, g.control ≠ g.target ∧ g.control < n ∧ g.target < n) ∧
    ∀ mask ∈ masks, (∃ i < n, mask = 2 ^ i) ∨
      ∃ first g rest, gates n masks = first ++ g :: rest ∧
        (Cnot.run (Bits.units n) (first ++ [g])).getD g.target 0 = mask := by
  refine ⟨?_, fun g hg => ?_, fun mask hmask => ?_⟩
  · rw [← WorkList.total_start]
    exact WorkList.iterate_turn _ _ (WorkList.weight_start n masks).le
  · have hwf := wellFormed_gates h g hg
    exact ⟨hwf.ne, hwf.control_lt, hwf.target_lt⟩
  · exact (unit_or_reached h hmask).imp_right exists_of_mem_reached

/-- Six parities of four qubits, one of which a single qubit has. -/
theorem gates_cover_masks_fourQubits :
    (∀ p ∈ [6, 1, 9, 7, 11, 3], p ≠ 0 ∧ p < 2 ^ 4) ∧
    (WorkList.turn 4)^[49] (.start 4 [6, 1, 9, 7, 11, 3]) =
      ⟨gates 4 [6, 1, 9, 7, 11, 3], []⟩ ∧
    ∃ first g rest, gates 4 [6, 1, 9, 7, 11, 3] = first ++ g :: rest ∧
      (Cnot.run (Bits.units 4) (first ++ [g])).getD g.target 0 = 11 := by
  have h : ∀ p ∈ [6, 1, 9, 7, 11, 3], p ≠ 0 ∧ p < 2 ^ 4 := by decide
  obtain ⟨hrun, -, hcover⟩ := gates_cover_masks 4 [6, 1, 9, 7, 11, 3] h
  refine ⟨h, hrun, (hcover 11 (by decide)).resolve_left ?_⟩
  decide

end CircuitSynthesis.ParityNetwork
