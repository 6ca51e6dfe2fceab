import CircuitSynthesis.Proofs.Cnot.Recipe

/-!
# The search for a partition size

With the search switched on, every partition size up to the size of the matrix
is tried, and the first that needs the fewest gates is kept. Greater sizes have
the same blocks as the size of the matrix, so none of them does better
(`IsFirstShortest.length_le`). With rewiring the search is for the matrix in
elimination order (`rearranged`). What the options say about a partition size
plays no part (`synthesize_searches_partitions`).
-/

namespace CircuitSynthesis.Cnot

open BinaryMatrix

variable {m : BinaryMatrix}

/-! ## Great partition sizes -/

/-- Blocks are never wider than the matrix. -/
theorem forMatrix_of_size_le {size : Nat} (hsize : 0 < m.size) (hle : m.size ≤ size) :
    forMatrix m size = forMatrix m m.size := by
  unfold forMatrix
  simp only [if_neg (show ¬size = 0 by omega), if_neg (show ¬m.size = 0 by omega),
    Nat.min_eq_right hle, Nat.min_self]

/-- No partition size at all needs fewer gates than the one that is kept. -/
theorem IsFirstShortest.length_le {best : Nat × List Cnot} (h : IsFirstShortest m m.size best)
    {size : Nat} (hpos : 1 ≤ size) {gates : List Cnot} (hgates : forMatrix m size = .ok gates) :
    best.2.length ≤ gates.length := by
  have hsize : 0 < m.size := Nat.lt_of_lt_of_le h.size_pos h.size_le
  rcases Nat.le_total size m.size with hle | hle
  · exact h.shortest size gates hpos hle hgates
  · rw [forMatrix_of_size_le hsize hle] at hgates
    exact h.shortest m.size gates hsize (Nat.le_refl _) hgates

/-! ## The search -/

/-- With the search switched on, the options' own partition size is not used. -/
theorem recipe_search (m : BinaryMatrix) (size size' : Nat) (allowRewiring : Bool) :
    recipe m ⟨size, true, allowRewiring⟩ = recipe m ⟨size', true, allowRewiring⟩ := rfl

/-- With the search switched on, a recipe has the first shortest gates for the
rearranged matrix. -/
theorem exists_recipe_search (hm : m.WellFormed)
    (hunit : IsUnit (rowMatrix m.size m.rows)) (allowRewiring : Bool) :
    ∃ t r, rearranged m allowRewiring = .ok t ∧ t.size = m.size ∧
      (∀ size, recipe m ⟨size, true, allowRewiring⟩ = .ok r ∧
        r.Delivers m ⟨size, true, allowRewiring⟩) ∧
      (∀ size, 1 ≤ size → ∃ gates, forMatrix t size = .ok gates) ∧
      (t.size = 0 → r.gates = []) ∧
      (0 < t.size → ∃ size, IsFirstShortest t t.size (size, r.gates)) := by
  obtain ⟨t, r, events, ht, hsize, hsome, hgates, hrecipe, hr⟩ :=
    exists_recipe_rearranged hm hunit (o := ⟨0, true, allowRewiring⟩) rfl
  obtain ⟨gates, events', hgates', hnone, hbest⟩ :=
    exists_chooseGates_search hsome (o := ⟨0, true, allowRewiring⟩) rfl
  rw [hgates] at hgates'
  cases hgates'
  refine ⟨t, r, ht, hsize, fun size => ⟨?_, hr.isPermutation, hr.makes, hr.order_eq_none⟩, hsome,
    hnone, hbest⟩
  rw [recipe_search m size 0]
  exact hrecipe

/-- On qubits of its own, a recipe becomes CNOTs of these qubits. -/
theorem liveGates_placeOn_ofQubits (r : Recipe) (n : Nat) :
    (r.placeOn (Circuit.ofQubits n) (Circuit.ofQubits n).qubits).liveGates =
      r.gates.map fun g => .cx (.qubit g.control) (.qubit g.target) := by
  show (List.foldl Circuit.place _ _).liveGates = _
  rw [Circuit.foldl_place_liveGates, Circuit.ofQubits_liveGates, List.nil_append,
    Circuit.ofQubits_qubits]
  refine List.map_congr_left fun g _ => ?_
  rw [toGate, Circuit.wire_ofQubits, Circuit.wire_ofQubits]

/-- **Partition search.** With the search switched on, with rewiring or without,
an invertible matrix is synthesized, and it makes no difference which partition
size the options name, even zero. Without rows there are no gates. Otherwise the
gates are those for one partition size up to the size of the matrix: no other
partition size, however great, needs fewer gates, and every smaller one needs
more. -/
theorem synthesize_searches_partitions (m : BinaryMatrix) (hm : m.WellFormed)
    (hinv : m.isInvertible = true) (allowRewiring : Bool) :
    ∃ t s, rearranged m allowRewiring = .ok t ∧
      (∀ size, synthesize m ⟨size, true, allowRewiring⟩ = .ok s) ∧
      (m.size = 0 → s.circuit.liveGates = []) ∧
      (0 < m.size → ∃ best gates, 1 ≤ best ∧ best ≤ m.size ∧ forMatrix t best = .ok gates ∧
        s.circuit.liveGates = gates.map (fun g => .cx (.qubit g.control) (.qubit g.target)) ∧
        ∀ size, 1 ≤ size → ∃ gates', forMatrix t size = .ok gates' ∧
          gates.length ≤ gates'.length ∧ (size < best → gates.length < gates'.length)) := by
  have hunit : IsUnit (rowMatrix m.size m.rows) := isInvertible_iff_isUnit.mp hinv
  obtain ⟨t, r, ht, hsize, hrecipe, hsome, hnone, hbest⟩ :=
    exists_recipe_search hm hunit allowRewiring
  have hsynthesize : ∀ size, synthesize m ⟨size, true, allowRewiring⟩ = .ok
      ⟨r.placeOn (Circuit.ofQubits m.size) (Circuit.ofQubits m.size).qubits,
        r.events ++ [.finished .cnot r.gates.length]⟩ := by
    intro size
    obtain ⟨hr, hdelivers⟩ := hrecipe size
    exact Edit.apply_of_eq_ok (edit_of_recipe hr hdelivers (Circuit.fits_ofQubits m.size)
      (Circuit.isRangePermutation_rewiring_ofQubits m.size))
  have hlive := liveGates_placeOn_ofQubits r m.size
  refine ⟨t, _, ht, hsynthesize, fun hzero => ?_, fun hpos => ?_⟩
  · rw [hlive, hnone (hsize.trans hzero), List.map_nil]
  · obtain ⟨best, hfirst⟩ := hbest (hsize ▸ hpos)
    refine ⟨best, r.gates, hfirst.size_pos, hsize ▸ hfirst.size_le, hfirst.gates_eq, hlive,
      fun size hsize' => ?_⟩
    obtain ⟨gates', hgates'⟩ := hsome size hsize'
    exact ⟨gates', hgates', hfirst.length_le hsize' hgates',
      fun hlt => hfirst.first size gates' hsize' hlt hgates'⟩

/-- Four rows need six gates in blocks of one, four in blocks of two or three, and
six again in one block. The options name no usable size. -/
theorem synthesize_searches_partitions_fourRows :
    BinaryMatrix.WellFormed ⟨[15, 14, 12, 8]⟩ ∧
    BinaryMatrix.isInvertible ⟨[15, 14, 12, 8]⟩ = true ∧
    ∃ s gates, synthesize ⟨[15, 14, 12, 8]⟩ ⟨0, true, false⟩ = .ok s ∧
      forMatrix ⟨[15, 14, 12, 8]⟩ 2 = .ok gates ∧
      s.circuit.liveGates = gates.map (fun g => .cx (.qubit g.control) (.qubit g.target)) := by
  have hm : BinaryMatrix.WellFormed ⟨[15, 14, 12, 8]⟩ := ⟨by decide, by decide⟩
  have hinv : BinaryMatrix.isInvertible ⟨[15, 14, 12, 8]⟩ = true := by decide +kernel
  obtain ⟨t, s, ht, hs, -, hbest⟩ := synthesize_searches_partitions _ hm hinv false
  cases ht
  obtain ⟨best, gates, hpos, hle, hgates, hlive, hsizes⟩ := hbest (by decide)
  have hlengths : ∀ size, 1 ≤ size → size ≤ 4 → (forMatrix ⟨[15, 14, 12, 8]⟩ size).map List.length =
      .ok (if size = 2 ∨ size = 3 then 4 else 6) := by
    intro size hpos hle
    obtain rfl | rfl | rfl | rfl : size = 1 ∨ size = 2 ∨ size = 3 ∨ size = 4 := by omega
    all_goals decide +kernel
  -- The gates of the best size are as few as those of size two, and size two comes first.
  have hlength := hlengths best hpos hle
  obtain ⟨gates', hgates', hshort, hfirst⟩ := hsizes 2 (by decide)
  have hlength' := hlengths 2 (by decide) (by decide)
  rw [hgates] at hlength
  rw [hgates'] at hlength'
  have hcount := Except.ok.inj hlength
  have hcount' : gates'.length = 4 := Except.ok.inj hlength'
  obtain rfl : best = 2 := by
    split at hcount <;> omega
  exact ⟨hm, hinv, s, gates, hs 0, hgates, hlive⟩

end CircuitSynthesis.Cnot
