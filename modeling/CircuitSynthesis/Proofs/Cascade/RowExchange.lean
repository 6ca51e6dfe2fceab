import CircuitSynthesis.Proofs.Cascade.Reduction

/-!
# Fixing one row

What the two ways to work on a row do to any table whose earlier rows are fixed,
whatever was recorded before (`steps_fix_row`). A gate on the output side acts
on the entries one by one. A gate on the input side moves rows, and it can do so
in place: it pairs every row with the one it takes it to, and a single scan that
exchanges a row with its partner further down meets each pair once
(`exchangeRows_eq_onInput`).
-/

namespace CircuitSynthesis

namespace Toffoli

variable {n i j k : Nat} {g : Toffoli} {table : Array Nat}

/-! ## Rows in place -/

/-- Exchange row `i` with the row that the gate takes it to, if that comes later. -/
def exchangeRow (g : Toffoli) (table : Array Nat) (i : Nat) : Array Nat :=
  if i < g.act i then table.swapIfInBounds i (g.act i) else table

/-- Exchange the rows that the gate pairs, in one scan from the first to the last. -/
def exchangeRows (table : Array Nat) (g : Toffoli) : Array Nat :=
  (List.range table.size).foldl g.exchangeRow table

/-- The rows once the scan has passed the first `k` of them. -/
def exchangedBelow (g : Toffoli) (table : Array Nat) (k : Nat) : Array Nat :=
  (List.range k).foldl g.exchangeRow table

theorem exchangedBelow_succ (g : Toffoli) (table : Array Nat) (k : Nat) :
    g.exchangedBelow table (k + 1) = g.exchangeRow (g.exchangedBelow table k) k := by
  rw [exchangedBelow, List.range_succ, List.foldl_append]
  rfl

@[simp] theorem size_exchangeRow (g : Toffoli) (table : Array Nat) (i : Nat) :
    (g.exchangeRow table i).size = table.size := by
  unfold exchangeRow
  split
  · exact Array.size_swapIfInBounds
  · rfl

@[simp] theorem size_exchangedBelow (g : Toffoli) (table : Array Nat) (k : Nat) :
    (g.exchangedBelow table k).size = table.size := by
  induction k with
  | zero => rfl
  | succ k ih => rw [exchangedBelow_succ, size_exchangeRow, ih]

theorem getD_exchangeRow (hi : i < table.size) (hact : g.act i < table.size)
    (hj : j < table.size) :
    (g.exchangeRow table i).getD j 0 =
      if i < g.act i ∧ j = i then table.getD (g.act i) 0
      else if i < g.act i ∧ j = g.act i then table.getD i 0
      else table.getD j 0 := by
  unfold exchangeRow
  by_cases hlt : i < g.act i
  · simp only [Array.swapIfInBounds, hi, hact, hlt, true_and, dite_true]
    simp [Array.getD, hi, hj, hact, Array.getElem_swap]
  · simp [hlt]

/-- Once the scan has passed row `k`, exactly the pairs that begin before `k` are
exchanged. -/
theorem getD_exchangedBelow (hg : g.WellFormed n) (hsize : table.size = 2 ^ n) (hk : k ≤ 2 ^ n)
    (hj : j < 2 ^ n) :
    (g.exchangedBelow table k).getD j 0 =
      if j < k ∨ g.act j < k then table.getD (g.act j) 0 else table.getD j 0 := by
  induction k generalizing j with
  | zero => simp [exchangedBelow]
  | succ k ih =>
    have hsize' : (g.exchangedBelow table k).size = 2 ^ n := by simpa using hsize
    have hk' : k < 2 ^ n := hk
    have hact : g.act k < 2 ^ n := act_lt hg hk'
    have hback : g.act (g.act k) = k := act_act hg.free k
    rw [exchangedBelow_succ,
      getD_exchangeRow (by omega) (by omega) (by omega), ih (by omega) hact, ih (by omega) hk',
      ih (by omega) hj, hback]
    -- Row `j` changes at this point only if it is one of `k` and its partner.
    by_cases hjk : j = k
    · subst hjk
      grind
    · by_cases hja : j = g.act k
      · subst hja
        grind
      · have hpartner : g.act j ≠ k := by
          rintro rfl
          exact hja (act_act hg.free j).symm
        grind

/-- The scan in place moves the rows as the gate asks. -/
theorem exchangeRows_eq_onInput (hg : g.WellFormed n) (hsize : table.size = 2 ^ n) :
    exchangeRows table g = onInput table g := by
  have hsize' : (g.exchangedBelow table (2 ^ n)).size = 2 ^ n := by simpa using hsize
  have hscan : exchangeRows table g = g.exchangedBelow table (2 ^ n) := by
    rw [exchangeRows, hsize, exchangedBelow]
  rw [hscan]
  apply Array.ext
  · simp [onInput]
  · intro j hj hj'
    have hlt : j < 2 ^ n := by omega
    have hentry := getD_exchangedBelow hg hsize (Nat.le_refl _) hlt
    rw [if_pos (.inl hlt)] at hentry
    rw [Array.getElem_eq_getD 0, hentry]
    simp only [onInput, Array.getElem_ofFn]

theorem foldl_exchangeRows {gates : List Toffoli} (hgates : ∀ g ∈ gates, g.WellFormed n)
    (hsize : table.size = 2 ^ n) :
    gates.foldl exchangeRows table = gates.foldl onInput table := by
  induction gates generalizing table with
  | nil => rfl
  | cons g gates ih =>
    obtain ⟨hg, hrest⟩ := List.forall_mem_cons.mp hgates
    rw [List.foldl_cons, List.foldl_cons, exchangeRows_eq_onInput hg hsize,
      ih hrest (by simpa [onInput] using hsize)]

end Toffoli

/-! ## One row of any table -/

namespace Cascade

open Toffoli

variable {n x : Nat} {s : State}

/-- Any table with its earlier rows fixed may be taken as the original. -/
theorem Reduces.of_fixed (h : IsRangePermutation (2 ^ n) s.table.toList)
    (hfixed : ∀ i < x, s.image i = i) : Reduces n s.table x ⟨s.table, [], [], []⟩ :=
  ⟨h, hfixed, by simp, by simp, fun _ _ => rfl⟩

/-- **One row.** Let the rows of a permutation table be fixed below `x`. Carrying
the image of row `x` to `x` leaves a permutation with row `x` fixed as well, and
the gates it records, undone from the last to the first, lead back from the new
entries to the old. Bringing a row `z` from `x` on to row `x` leaves a
permutation with the rows below `x` fixed and the entry of row `z` in row `x`; the
gates it records tell for each old row where it went, and each of them is a scan
that exchanges rows in place. Neither touches the gates of the other side. -/
theorem steps_fix_row (n x : Nat) (s : State) (hx : x < 2 ^ n)
    (hperm : IsRangePermutation (2 ^ n) s.table.toList) (hfixed : ∀ i < x, s.image i = i) :
    (∃ gates, (s.carryImage x).outputSide = s.outputSide ++ gates ∧
      (s.carryImage x).inputSide = s.inputSide ∧
      (∀ g ∈ gates, g.WellFormed n) ∧
      IsRangePermutation (2 ^ n) (s.carryImage x).table.toList ∧
      (∀ i ≤ x, (s.carryImage x).image i = i) ∧
      ∀ i < 2 ^ n, s.image i = run gates.reverse ((s.carryImage x).image i)) ∧
    ∀ z, x ≤ z → z < 2 ^ n →
      ∃ gates, (s.bringRow x z).inputSide = s.inputSide ++ gates ∧
        (s.bringRow x z).outputSide = s.outputSide ∧
        (∀ g ∈ gates, g.WellFormed n) ∧
        (s.bringRow x z).table = gates.foldl exchangeRows s.table ∧
        IsRangePermutation (2 ^ n) (s.bringRow x z).table.toList ∧
        (∀ i < x, (s.bringRow x z).image i = i) ∧
        (s.bringRow x z).image x = s.image z ∧
        ∀ i < 2 ^ n, s.image i = (s.bringRow x z).image (run gates i) := by
  have hreduces := Reduces.of_fixed hperm hfixed
  have hsize : s.table.size = 2 ^ n := hreduces.size_table
  constructor
  · have hcarried := hreduces.carryImage hx
    exact ⟨route (s.image x) x, rfl, rfl, hcarried.outputSide, hcarried.isPermutation,
      fun i hi => hcarried.fixed i (Nat.lt_succ_of_le hi),
      fun i hi => (hcarried.realizes i hi).symm⟩
  · intro z hxz hz
    have hbrought := hreduces.bringRow hxz hz
    exact ⟨route z x, rfl, rfl, hbrought.inputSide,
      (foldl_exchangeRows hbrought.inputSide hsize).symm, hbrought.isPermutation, hbrought.fixed,
      image_bringRow_self s hsize hx hz, fun i hi => (hbrought.realizes i hi).symm⟩

/-- Rows `0` and `1` are fixed, row `2` holds seven, and row `4` holds two. -/
theorem steps_fix_row_three_bits :
    let s : State := ⟨#[0, 1, 7, 4, 2, 3, 5, 6], [], [⟨3, 2⟩], []⟩
    IsRangePermutation 8 s.table.toList ∧ (∀ i < 2, s.image i = i) ∧
      (s.carryImage 2).table = #[0, 1, 2, 4, 7, 6, 5, 3] ∧
      (∀ i ≤ 2, (s.carryImage 2).image i = i) ∧
      (s.bringRow 2 4).table = #[0, 1, 2, 3, 5, 6, 7, 4] ∧
      (s.bringRow 2 4).image 2 = s.image 4 := by
  intro s
  have hperm : IsRangePermutation 8 s.table.toList := ⟨rfl, by decide, by decide⟩
  have hfixed : ∀ i < 2, s.image i = i := by decide
  obtain ⟨⟨-, -, -, -, -, hcarried, -⟩, hbring⟩ := steps_fix_row 3 2 s (by decide) hperm hfixed
  obtain ⟨-, -, -, -, -, -, -, hbrought, -⟩ := hbring 4 (by decide) (by decide)
  exact ⟨hperm, hfixed, by decide +kernel, hcarried, by decide +kernel, hbrought⟩

end Cascade

end CircuitSynthesis
