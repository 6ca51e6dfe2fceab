import CircuitSynthesis.Proofs.Cascade.Toffoli

/-!
# Reduction of a truth table to the identity

Three facts hold while the rows are fixed one after another: the table is
still a permutation, the rows below the current one are fixed, and the
original table is the current one between the gates of the two sides
(`Cascade.Reduces`). Working on the output side keeps them and fixes the
current row; working on the input side keeps them and moves a chosen row into
place. Every direction combines the two, so at the end of the run the table is
the identity and the gates alone realize the original one.
-/

namespace CircuitSynthesis

/-! ## Tables as functions -/

/-- A table is a permutation exactly when its entries are in range and no two
rows agree. -/
theorem isRangePermutation_iff_getD {n : Nat} {table : Array Nat} :
    IsRangePermutation n table.toList ↔
      table.size = n ∧ (∀ i < n, table.getD i 0 < n) ∧
        ∀ i < n, ∀ j < n, table.getD i 0 = table.getD j 0 → i = j := by
  constructor
  · intro h
    have hsize : table.size = n := h.length_eq
    refine ⟨hsize, ?_, ?_⟩
    · intro i hi
      have hi' : i < table.size := by omega
      simpa [Array.getD, hi'] using h.lt _ (Array.getElem_mem_toList hi')
    · intro i hi j hj he
      have hi' : i < table.toList.length := by simpa [hsize] using hi
      have hj' : j < table.toList.length := by simpa [hsize] using hj
      have he' : table.toList[i] = table.toList[j] := by
        simpa [Array.getD, hsize, hi, hj] using he
      exact (List.getElem_inj h.nodup).mp he'
  · rintro ⟨hsize, hlt, hinj⟩
    refine ⟨hsize, ?_, ?_⟩
    · rw [List.nodup_iff_pairwise_ne, List.pairwise_iff_getElem]
      intro i j hi hj hij he
      have hi' : i < n := by simpa [hsize] using hi
      have hj' : j < n := by simpa [hsize] using hj
      have := hinj i hi' j hj' (by simpa [Array.getD, hsize, hi', hj'] using he)
      omega
    · intro v hv
      obtain ⟨i, hi, rfl⟩ := List.getElem_of_mem hv
      have hi' : i < n := by simpa [hsize] using hi
      simpa [Array.getD, hsize, hi'] using hlt i hi'

/-- A permutation table takes every value. -/
theorem IsRangePermutation.exists_getD_eq {n : Nat} {table : Array Nat}
    (h : IsRangePermutation n table.toList) {v : Nat} (hv : v < n) :
    ∃ i < n, table.getD i 0 = v := by
  obtain ⟨i, hi, he⟩ := List.getElem_of_mem (h.mem hv)
  have hi' : i < table.size := by simpa using hi
  refine ⟨i, by simpa [← h.length_eq] using hi', ?_⟩
  simpa [Array.getD, hi'] using he

namespace Toffoli

theorem size_foldl_onOutput (gates : List Toffoli) (table : Array Nat) :
    (gates.foldl onOutput table).size = table.size := by
  induction gates generalizing table with
  | nil => rfl
  | cons g gates ih => rw [List.foldl_cons, ih, onOutput, Array.size_map]

/-- Gates on the output side act on every entry. -/
theorem getD_foldl_onOutput (gates : List Toffoli) (table : Array Nat) {i : Nat}
    (hi : i < table.size) :
    (gates.foldl onOutput table).getD i 0 = run gates (table.getD i 0) := by
  induction gates generalizing table with
  | nil => rfl
  | cons g gates ih =>
    have hi' : i < (onOutput table g).size := by simpa [onOutput] using hi
    have hstep : (onOutput table g).getD i 0 = g.act (table.getD i 0) := by
      simp [onOutput, Array.getD, hi]
    rw [List.foldl_cons, ih (onOutput table g) hi', hstep, run_cons]

theorem size_foldl_onInput (gates : List Toffoli) (table : Array Nat) :
    (gates.foldl onInput table).size = table.size := by
  induction gates generalizing table with
  | nil => rfl
  | cons g gates ih => rw [List.foldl_cons, ih, onInput, Array.size_ofFn]

/-- Gates on the input side move the rows: row `i` comes from where the gates,
undone from the last to the first, take `i`. -/
theorem getD_foldl_onInput {n : Nat} {gates : List Toffoli}
    (hgates : ∀ g ∈ gates, g.WellFormed n) {table : Array Nat} (hsize : table.size = 2 ^ n)
    {i : Nat} (hi : i < 2 ^ n) :
    (gates.foldl onInput table).getD i 0 = table.getD (run gates.reverse i) 0 := by
  induction gates generalizing table with
  | nil => rfl
  | cons g gates ih =>
    have hrest : ∀ g' ∈ gates, g'.WellFormed n := fun g' hg' =>
      hgates g' (List.mem_cons_of_mem _ hg')
    have hj : run gates.reverse i < 2 ^ n :=
      run_lt (fun g' hg' => hrest g' (List.mem_reverse.mp hg')) hi
    have hsize' : (onInput table g).size = 2 ^ n := by simpa [onInput] using hsize
    rw [List.foldl_cons, ih hrest hsize', List.reverse_cons, run_append]
    rw [← hsize] at hj
    show _ = table.getD (g.act (run gates.reverse i)) 0
    simp [onInput, Array.getD, hj]

end Toffoli

/-! ## The invariant -/

namespace Cascade

open Toffoli

/-- The rows below `x` are fixed, and the table is what remains of `original`
between the gates of the two sides. -/
structure Reduces (n : Nat) (original : Array Nat) (x : Nat) (s : State) : Prop where
  isPermutation : IsRangePermutation (2 ^ n) s.table.toList
  fixed : ∀ i < x, s.image i = i
  inputSide : ∀ g ∈ s.inputSide, g.WellFormed n
  outputSide : ∀ g ∈ s.outputSide, g.WellFormed n
  realizes : ∀ i < 2 ^ n,
    run s.outputSide.reverse (s.image (run s.inputSide i)) = original.getD i 0

variable {n x z : Nat} {original : Array Nat} {s : State}

theorem Reduces.size_table (h : Reduces n original x s) : s.table.size = 2 ^ n :=
  h.isPermutation.length_eq

theorem Reduces.image_lt (h : Reduces n original x s) {i : Nat} (hi : i < 2 ^ n) :
    s.image i < 2 ^ n :=
  (isRangePermutation_iff_getD.mp h.isPermutation).2.1 i hi

theorem Reduces.image_injective (h : Reduces n original x s) {i j : Nat} (hi : i < 2 ^ n)
    (hj : j < 2 ^ n) (he : s.image i = s.image j) : i = j :=
  (isRangePermutation_iff_getD.mp h.isPermutation).2.2 i hi j hj he

/-- The rows from `x` on only hold values from `x` on. -/
theorem Reduces.le_image (h : Reduces n original x s) {i : Nat} (hx : x ≤ i) (hi : i < 2 ^ n) :
    x ≤ s.image i := by
  apply Nat.le_of_not_lt
  intro hlt
  have hfixed := h.fixed (s.image i) hlt
  have := h.image_injective (by omega) hi hfixed
  omega

theorem Reduces.start {table : Array Nat} (h : IsRangePermutation (2 ^ n) table.toList) :
    Reduces n table 0 ⟨table, [], [], []⟩ :=
  ⟨h, by simp, by simp, by simp, fun _ _ => rfl⟩

/-- Once row `x` holds `x`, it is fixed. -/
theorem Reduces.advance (h : Reduces n original x s) (hx : s.image x = x) :
    Reduces n original (x + 1) s := by
  refine ⟨h.isPermutation, ?_, h.inputSide, h.outputSide, h.realizes⟩
  intro i hi
  rcases Nat.lt_succ_iff_lt_or_eq.mp hi with hlt | rfl
  · exact h.fixed i hlt
  · exact hx

/-- Events are not part of the invariant. -/
theorem Reduces.report (h : Reduces n original x s) (e : Event) :
    Reduces n original x (s.report e) :=
  ⟨h.isPermutation, h.fixed, h.inputSide, h.outputSide, h.realizes⟩

/-! ## One row -/

theorem image_carryImage (s : State) (x : Nat) {i : Nat} (hi : i < s.table.size) :
    (s.carryImage x).image i = run (route (s.image x) x) (s.image i) :=
  getD_foldl_onOutput _ _ hi

/-- Carrying the image of row `x` to `x` fixes the row. -/
theorem Reduces.carryImage (h : Reduces n original x s) (hx : x < 2 ^ n) :
    Reduces n original (x + 1) (s.carryImage x) := by
  have hsize := h.size_table
  have hgates := wellFormed_of_mem_route (h.image_lt hx) hx
  have himage : ∀ i < 2 ^ n,
      (s.carryImage x).image i = run (route (s.image x) x) (s.image i) :=
    fun i hi => image_carryImage s x (by omega)
  refine ⟨isRangePermutation_iff_getD.mpr ⟨?_, ?_, ?_⟩, ?_, h.inputSide, ?_, ?_⟩
  · exact (size_foldl_onOutput _ _).trans hsize
  · intro i hi
    show (s.carryImage x).image i < 2 ^ n
    rw [himage i hi]
    exact run_lt hgates (h.image_lt hi)
  · intro i hi j hj he
    change (s.carryImage x).image i = (s.carryImage x).image j at he
    rw [himage i hi, himage j hj] at he
    exact h.image_injective hi hj (run_injective hgates he)
  · intro i hi
    rw [himage i (by omega)]
    -- The values of earlier rows lie below both ends of the route.
    rcases Nat.lt_succ_iff_lt_or_eq.mp hi with hlt | rfl
    · rw [h.fixed i hlt]
      exact run_route_of_lt (Nat.lt_of_lt_of_le hlt (h.le_image (Nat.le_refl x) hx)) hlt
    · exact run_route _ _
  · intro g hg
    rcases List.mem_append.mp hg with hg | hg
    · exact h.outputSide g hg
    · exact hgates g hg
  · intro i hi
    have hrun : run s.inputSide i < 2 ^ n := run_lt h.inputSide hi
    show run (s.outputSide ++ route (s.image x) x).reverse
      ((s.carryImage x).image (run s.inputSide i)) = _
    rw [List.reverse_append, run_append, himage _ hrun, run_reverse_run hgates]
    exact h.realizes i hi

theorem image_bringRow {n x z : Nat} (s : State) (hsize : s.table.size = 2 ^ n)
    (hx : x < 2 ^ n) (hz : z < 2 ^ n) {i : Nat} (hi : i < 2 ^ n) :
    (s.bringRow x z).image i = s.image (run (route z x).reverse i) :=
  getD_foldl_onInput (wellFormed_of_mem_route hz hx) hsize hi

/-- After row `z` was brought to row `x`, row `x` holds what row `z` held. -/
theorem image_bringRow_self {n x z : Nat} (s : State) (hsize : s.table.size = 2 ^ n)
    (hx : x < 2 ^ n) (hz : z < 2 ^ n) : (s.bringRow x z).image x = s.image z := by
  have hback : run (route z x).reverse x = z := by
    have := run_reverse_run (wellFormed_of_mem_route hz hx) z
    rwa [run_route] at this
  rw [image_bringRow s hsize hx hz hx, hback]

/-- Bringing a row from `x` on to row `x` leaves the rows below `x` fixed. -/
theorem Reduces.bringRow (h : Reduces n original x s) (hxz : x ≤ z) (hz : z < 2 ^ n) :
    Reduces n original x (s.bringRow x z) := by
  have hsize := h.size_table
  have hx : x < 2 ^ n := by omega
  have hgates := wellFormed_of_mem_route hz hx
  have hback : ∀ g ∈ (route z x).reverse, g.WellFormed n := fun g hg =>
    hgates g (List.mem_reverse.mp hg)
  have himage : ∀ i < 2 ^ n,
      (s.bringRow x z).image i = s.image (run (route z x).reverse i) :=
    fun i hi => image_bringRow s hsize hx hz hi
  refine ⟨isRangePermutation_iff_getD.mpr ⟨?_, ?_, ?_⟩, ?_, ?_, h.outputSide, ?_⟩
  · exact (size_foldl_onInput _ _).trans hsize
  · intro i hi
    show (s.bringRow x z).image i < 2 ^ n
    rw [himage i hi]
    exact h.image_lt (run_lt hback hi)
  · intro i hi j hj he
    change (s.bringRow x z).image i = (s.bringRow x z).image j at he
    rw [himage i hi, himage j hj] at he
    exact run_injective hback (h.image_injective (run_lt hback hi) (run_lt hback hj) he)
  · intro i hi
    rw [himage i (by omega), run_reverse_route_of_lt (by omega) hi]
    exact h.fixed i hi
  · intro g hg
    rcases List.mem_append.mp hg with hg | hg
    · exact h.inputSide g hg
    · exact hgates g hg
  · intro i hi
    have hrun : run s.inputSide i < 2 ^ n := run_lt h.inputSide hi
    show run s.outputSide.reverse
      ((s.bringRow x z).image (run (s.inputSide ++ route z x) i)) = _
    rw [run_append, himage _ (run_lt hgates hrun), run_reverse_run hgates]
    exact h.realizes i hi

/-- The row that holds `x` is found, at or after row `x`. -/
theorem Reduces.rowOf (h : Reduces n original x s) (hx : x < 2 ^ n) :
    x ≤ s.rowOf x ∧ s.rowOf x < 2 ^ n ∧ s.image (s.rowOf x) = x := by
  obtain ⟨i, hi, he⟩ := h.isPermutation.exists_getD_eq hx
  have hxi : x ≤ i := by
    apply Nat.le_of_not_lt
    intro hlt
    have hfixed := h.fixed i hlt
    change s.image i = x at he
    omega
  have hsize := h.size_table
  unfold State.rowOf
  cases hfind : (List.range' x (s.table.size - x)).find? (s.image · == x) with
  | none =>
    have hmem : i ∈ List.range' x (s.table.size - x) := by
      rw [List.mem_range'_1]
      omega
    change s.image i = x at he
    exact absurd he (by simpa using List.find?_eq_none.mp hfind i hmem)
  | some z =>
    have hmem := List.mem_range'_1.mp (List.mem_of_find?_eq_some hfind)
    have hz := List.find?_some hfind
    refine ⟨hmem.1, ?_, by simpa using hz⟩
    show z < 2 ^ n
    omega

/-- The search starts from one row and ends with a cheapest one. -/
theorem foldl_cheapest_spec (cost : Nat → Nat) (rows : List Nat) (x : Nat) :
    ∃ z, rows.foldl (fun best z => if cost z < best.2 then (z, cost z) else best) (x, cost x) =
        (z, cost z) ∧ z ∈ x :: rows ∧ ∀ y ∈ x :: rows, cost z ≤ cost y := by
  induction rows generalizing x with
  | nil => exact ⟨x, rfl, List.mem_cons_self, by simp⟩
  | cons y rows ih =>
    rw [List.foldl_cons]
    by_cases hlt : cost y < cost x
    · rw [if_pos hlt]
      obtain ⟨z, hz, hmem, hleast⟩ := ih y
      have hle := hleast y List.mem_cons_self
      exact ⟨z, hz, List.mem_cons_of_mem _ hmem, List.forall_mem_cons.mpr ⟨by omega, hleast⟩⟩
    · rw [if_neg hlt]
      obtain ⟨z, hz, hmem, hleast⟩ := ih x
      obtain ⟨hle, hrest⟩ := List.forall_mem_cons.mp hleast
      refine ⟨z, hz, ?_, List.forall_mem_cons.mpr ⟨hle, List.forall_mem_cons.mpr ⟨?_, hrest⟩⟩⟩
      · exact (List.sublist_cons_self y rows).cons_cons x |>.subset hmem
      · omega

/-- The cheapest row is one of the rows from `x` on, and none of them costs less. -/
theorem exists_cheapestRow (s : State) {x : Nat} (hx : x < s.table.size) :
    ∃ z, s.cheapestRow x = (z, s.cost x z) ∧ x ≤ z ∧ z < s.table.size ∧
      ∀ y, x ≤ y → y < s.table.size → s.cost x z ≤ s.cost x y := by
  have hrows (y : Nat) : y ∈ x :: List.range' (x + 1) (s.table.size - (x + 1)) ↔
      x ≤ y ∧ y < s.table.size := by
    rw [List.mem_cons, List.mem_range'_1]
    omega
  obtain ⟨z, hz, hmem, hleast⟩ := foldl_cheapest_spec (s.cost x)
    (List.range' (x + 1) (s.table.size - (x + 1))) x
  obtain ⟨hle, hlt⟩ := (hrows z).mp hmem
  exact ⟨z, hz, hle, hlt, fun y hxy hy => hleast y ((hrows y).mpr ⟨hxy, hy⟩)⟩

/-- Every direction fixes row `x` once the rows before it are fixed. -/
theorem Reduces.step (h : Reduces n original x s) (hx : x < 2 ^ n) (direction : Direction) :
    Reduces n original (x + 1) (s.step direction x) := by
  cases direction with
  | unidirectional =>
    unfold State.step
    by_cases hfixed : s.image x = x
    · simp only [if_pos hfixed]
      exact h.advance hfixed
    · simp only [if_neg hfixed]
      exact h.carryImage hx
  | bidirectional =>
    unfold State.step
    by_cases hfixed : s.image x = x
    · simp only [if_pos hfixed]
      exact h.advance hfixed
    · simp only [if_neg hfixed]
      split
      · exact h.carryImage hx
      · obtain ⟨hle, hlt, himage⟩ := h.rowOf hx
        have hreport := h.report (.fixedFromInput x (s.rowOf x))
        refine (hreport.bringRow hle hlt).advance ?_
        rw [image_bringRow_self _ hreport.size_table hx hlt]
        exact himage
  | multidirectional =>
    unfold State.step
    obtain ⟨z, hz, hle, hlt, -⟩ := exists_cheapestRow s (x := x) (by rw [h.size_table]; exact hx)
    rw [h.size_table] at hlt
    simp only [hz]
    -- Whether the move is reported makes no difference to the invariant.
    have hreported : Reduces n original x (if z = x then s
        else s.report (.movedRow x z (s.cost x z))) := by
      split
      · exact h
      · exact h.report _
    exact (hreported.bringRow hle hlt).carryImage hx

/-! ## The whole run -/

/-- The state once the rows below `x` are fixed. -/
def stateAt (direction : Direction) (table : Array Nat) (x : Nat) : State :=
  (List.range x).foldl (State.step direction) ⟨table, [], [], []⟩

theorem stateAt_succ (direction : Direction) (table : Array Nat) (x : Nat) :
    stateAt direction table (x + 1) = (stateAt direction table x).step direction x := by
  rw [stateAt, List.range_succ, List.foldl_append]
  rfl

theorem reduces_stateAt {table : Array Nat} (h : IsRangePermutation (2 ^ n) table.toList)
    (direction : Direction) (hx : x ≤ 2 ^ n) :
    Reduces n table x (stateAt direction table x) := by
  induction x with
  | zero => exact .start h
  | succ x ih =>
    rw [stateAt_succ]
    exact (ih (by omega)).step (by omega) direction

theorem reduce_eq_stateAt (direction : Direction) {table : Array Nat}
    (h : IsRangePermutation (2 ^ n) table.toList) :
    reduce direction table = stateAt direction table (2 ^ n) := by
  have hsize : table.size = 2 ^ n := h.length_eq
  rw [← hsize]
  rfl

/-- After the run every row is fixed. -/
theorem reduces_reduce {table : Array Nat} (h : IsRangePermutation (2 ^ n) table.toList)
    (direction : Direction) : Reduces n table (2 ^ n) (reduce direction table) := by
  rw [reduce_eq_stateAt direction h]
  exact reduces_stateAt h direction (Nat.le_refl _)

/-- A table with all rows fixed is the identity. -/
theorem Reduces.table_eq (h : Reduces n original (2 ^ n) s) :
    s.table = ReversibleFunction.identityTable (2 ^ n) := by
  have hsize := h.size_table
  apply Array.ext
  · simp [ReversibleFunction.identityTable, hsize]
  · intro i hi _
    have hfixed := h.fixed i (by omega)
    simpa [State.image, Array.getD, hi, ReversibleFunction.identityTable] using hfixed

/-- With all rows fixed, the gates in circuit order realize the original table. -/
theorem Reduces.run_gates (h : Reduces n original (2 ^ n) s) {i : Nat} (hi : i < 2 ^ n) :
    run s.gates i = original.getD i 0 := by
  have hrun : run s.inputSide i < 2 ^ n := run_lt h.inputSide hi
  unfold State.gates
  rw [run_append, ← h.realizes i hi, h.fixed _ hrun]

theorem Reduces.wellFormed_gates (h : Reduces n original x s) :
    ∀ g ∈ s.gates, g.WellFormed n := by
  intro g hg
  rcases List.mem_append.mp hg with hg | hg
  · exact h.inputSide g hg
  · exact h.outputSide g (List.mem_reverse.mp hg)

end Cascade

end CircuitSynthesis
