import CircuitSynthesis.Proofs.BinaryMatrix.RowOrder
import CircuitSynthesis.Proofs.Circuit.Placement
import CircuitSynthesis.Proofs.Cnot.Reconstruction
import CircuitSynthesis.Proofs.Edit

/-!
# Recipes for invertible matrices

With usable options there is a recipe for every invertible matrix
(`exists_recipe`). Its gates make the rows of the matrix in the order that the
recipe names, which is their own order unless rewiring is allowed. On an
accepted placement the recipe is appended without failure, and on the qubits
of a fresh circuit the wire permutation becomes the order of the recipe.
-/

namespace CircuitSynthesis

open BinaryMatrix

theorem CnotOptions.isUsable_iff {o : CnotOptions} :
    o.isUsable = true ↔ o.searchPartition = true ∨ 1 ≤ o.partitionSize := by
  unfold isUsable
  rw [Bool.or_eq_true, bne_iff_ne, Nat.one_le_iff_ne_zero]

theorem CnotOptions.validate_eq_ok_iff {o : CnotOptions} :
    o.validate = .ok () ↔ o.isUsable = true := by
  unfold validate
  split <;> simp [*]

namespace Cnot

/-! ## Row orders -/

/-- A step with a pivot makes the move of forward elimination and only
exchanges positions. -/
theorem orderStep_of_pivot {k pivot : Nat} {pairs : List (Nat × Nat)} (hk : k < pairs.length)
    (h : firstFrom? (·.testBit k) k (pairs.map Prod.fst) = some pivot) :
    ∃ pairs', orderStep pairs k = some pairs' ∧
      pairs'.map Prod.fst = pivotRows (k < ·) k pivot (pairs.map Prod.fst) ∧
      pairs'.map Prod.snd = swapEntries (pairs.map Prod.snd) k pivot := by
  have hpivot : pivot < pairs.length := lt_length_of_firstFrom? h
  rw [firstFrom?_map] at h
  refine ⟨_, by rw [orderStep, h]; rfl, map_fst_mapIdx_pivot hk hpivot fun _ => rfl, ?_⟩
  have hsnd : ∀ (move : Nat × Nat → Nat × Nat) (l : List (Nat × Nat)),
      (∀ p, (move p).2 = p.2) →
      (l.mapIdx fun r p => if k < r ∧ p.1.testBit k then move p else p).map Prod.snd =
        l.map Prod.snd := by
    intro move l hmove
    apply List.ext_getElem
    · simp
    · intro i _ _
      simp only [List.getElem_map, List.getElem_mapIdx]
      split
      · exact hmove _
      · rfl
  rw [← map_swapEntries Prod.snd hk hpivot]
  exact hsnd (fun p => (p.1 ^^^ ((swapEntries pairs k pivot).getD k (0, 0)).1, p.2)) _ fun _ => rfl

/-- An invertible matrix has an elimination order. -/
theorem exists_eliminationOrder {m : BinaryMatrix} (hunit : IsUnit (rowMatrix m.size m.rows)) :
    ∃ order, eliminationOrder m = .ok order ∧ IsRangePermutation m.size order := by
  have hfst : (m.rows.zip (List.range m.size)).map Prod.fst = m.rows :=
    List.map_fst_zip (by simp [size])
  have hsnd : (m.rows.zip (List.range m.size)).map Prod.snd = List.range m.size :=
    List.map_snd_zip (by simp [size])
  obtain ⟨pairs, hrun, -, hperm⟩ :=
    elimination_run orderStep (fun k i => k < i)
      (fun _ pairs => (pairs.map Prod.snd).Perm (List.range m.size))
      rfl hunit hfst (by rw [hsnd]) (fun _ _ hi => hi) Nat.lt_irrefl
      (fun _ hk hpivot hperm => by
        obtain ⟨pairs', hstep, hfst', hsnd'⟩ := orderStep_of_pivot hk hpivot
        refine ⟨pairs', hstep, hfst', ?_⟩
        rw [hsnd']
        exact (perm_swapEntries _ _ _).trans hperm)
      (Nat.le_refl m.size)
  refine ⟨pairs.map Prod.snd, by rw [eliminationOrder, hrun], ?_⟩
  exact isRangePermutation_of_mem (by simpa using hperm.length_eq)
    fun v hv => hperm.mem_iff.mpr (List.mem_range.mpr hv)

/-! ## Choosing gates -/

theorem makes_nil {m : BinaryMatrix} (h : m.rows = Bits.units m.size) :
    Makes m.size [] m.rows := ⟨by simp, by rw [run_nil, h]⟩

/-- Of the partition sizes up to `count`, the first that needs the fewest gates,
with these gates. -/
structure IsFirstShortest (m : BinaryMatrix) (count : Nat) (best : Nat × List Cnot) : Prop where
  size_pos : 1 ≤ best.1
  size_le : best.1 ≤ count
  gates_eq : forMatrix m best.1 = .ok best.2
  shortest : ∀ size gates, 1 ≤ size → size ≤ count → forMatrix m size = .ok gates →
    best.2.length ≤ gates.length
  first : ∀ size gates, 1 ≤ size → size < best.1 → forMatrix m size = .ok gates →
    best.2.length < gates.length

/-- The next size takes over if it needs fewer gates than all sizes before it. -/
theorem isFirstShortest_shorter {m : BinaryMatrix} {count : Nat} {best : Option (Nat × List Cnot)}
    {gates : List Cnot} (hnone : best = none → count = 0)
    (hbest : ∀ s ∈ best, IsFirstShortest m count s) (hgates : forMatrix m (1 + count) = .ok gates) :
    ∃ s, shorter best (1 + count) gates = some s ∧ IsFirstShortest m (count + 1) s := by
  -- A size up to `count + 1` is one of those before or the new one.
  have hsplit : ∀ size gates', size ≤ count + 1 → forMatrix m size = .ok gates' →
      size ≤ count ∨ gates'.length = gates.length := by
    intro size gates' hsize hgates'
    rcases Nat.lt_or_eq_of_le hsize with hlt | rfl
    · exact .inl (by omega)
    · rw [Nat.add_comm, hgates] at hgates'
      cases hgates'
      exact .inr rfl
  cases best with
  | none =>
    refine ⟨(1 + count, gates), rfl, by omega, by omega, hgates, ?_, ?_⟩
    · intro size gates' hpos hle hgates'
      rcases hsplit size gates' hle hgates' with hle | heq
      · have := hnone rfl
        omega
      · exact Nat.le_of_eq heq.symm
    · intro size gates' hpos hlt
      have := hnone rfl
      dsimp only at hlt
      omega
  | some s =>
    have hs := hbest s rfl
    by_cases hlt : gates.length < s.2.length
    · refine ⟨(1 + count, gates), if_pos hlt, by omega, by omega, hgates, ?_, ?_⟩
      · intro size gates' hpos hle hgates'
        rcases hsplit size gates' hle hgates' with hle | heq
        · exact Nat.le_of_lt (Nat.lt_of_lt_of_le hlt (hs.shortest size gates' hpos hle hgates'))
        · exact Nat.le_of_eq heq.symm
      · intro size gates' hpos hsize hgates'
        dsimp only at hsize
        exact Nat.lt_of_lt_of_le hlt (hs.shortest size gates' hpos (by omega) hgates')
    · refine ⟨s, if_neg hlt, hs.size_pos, Nat.le_succ_of_le hs.size_le, hs.gates_eq, ?_, hs.first⟩
      intro size gates' hpos hle hgates'
      rcases hsplit size gates' hle hgates' with hle | heq
      · exact hs.shortest size gates' hpos hle hgates'
      · omega

/-- The search over the first `count` partition sizes keeps the first shortest
gates, as soon as there was a size to try. -/
theorem bestPartition_run {m : BinaryMatrix}
    (h : ∀ size, 1 ≤ size → ∃ gates, forMatrix m size = .ok gates) (count : Nat) :
    ∃ best, (List.range' 1 count).foldlM
        (fun best size => (forMatrix m size).map (shorter best size)) none = .ok best ∧
      (best = none → count = 0) ∧ ∀ s ∈ best, IsFirstShortest m count s := by
  induction count with
  | zero => exact ⟨none, rfl, fun _ => rfl, by simp⟩
  | succ count ih =>
    obtain ⟨best, hrun, hnone, hbest⟩ := ih
    obtain ⟨gates, hgates⟩ := h (1 + count) (by omega)
    obtain ⟨s, hs, hfirst⟩ := isFirstShortest_shorter hnone hbest hgates
    refine ⟨some s, ?_, by simp, ?_⟩
    · rw [List.range'_concat, List.foldlM_append, hrun]
      simp [hgates, hs, Except.map, bind, Except.bind, pure, Except.pure]
    · rintro _ ⟨⟩
      exact hfirst

/-- With the search switched on, the first shortest gates of all sizes up to that
of the matrix are chosen, and none if it has no rows. -/
theorem exists_chooseGates_search {m : BinaryMatrix}
    (h : ∀ size, 1 ≤ size → ∃ gates, forMatrix m size = .ok gates) {o : CnotOptions}
    (hsearch : o.searchPartition = true) :
    ∃ gates events, chooseGates m o = .ok (gates, events) ∧ (m.size = 0 → gates = []) ∧
      (0 < m.size → ∃ size, IsFirstShortest m m.size (size, gates)) := by
  obtain ⟨best, hrun, hnone, hbest⟩ := bestPartition_run h m.size
  unfold chooseGates
  rw [if_pos hsearch, bestPartition, hrun]
  cases best with
  | none => exact ⟨[], [], rfl, fun _ => rfl, fun hpos => absurd (hnone rfl) (by omega)⟩
  | some s =>
    have hfirst := hbest s rfl
    have hpos := hfirst.size_pos
    have hle := hfirst.size_le
    exact ⟨s.2, _, rfl, by omega, fun _ => ⟨s.1, hfirst⟩⟩

theorem exists_chooseGates {m : BinaryMatrix} (hm : m.WellFormed)
    (hunit : IsUnit (rowMatrix m.size m.rows)) {o : CnotOptions} (ho : o.isUsable = true) :
    ∃ gates events, chooseGates m o = .ok (gates, events) ∧ Makes m.size gates m.rows := by
  by_cases hsearch : o.searchPartition = true
  · obtain ⟨gates, events, hgates, hnone, hbest⟩ := exists_chooseGates_search (m := m)
      (fun size hsize => (exists_forMatrix hm hunit hsize).imp fun _ h => h.1) hsearch
    refine ⟨gates, events, hgates, ?_⟩
    rcases Nat.eq_zero_or_pos m.size with hsize | hsize
    · -- Without a size to try there are no rows.
      rw [hnone hsize]
      apply makes_nil
      rw [hsize, List.eq_nil_of_length_eq_zero hsize]
      rfl
    · obtain ⟨size, hfirst⟩ := hbest hsize
      obtain ⟨gates', hgates', hmakes⟩ := exists_forMatrix hm hunit hfirst.size_pos
      rw [hfirst.gates_eq] at hgates'
      cases hgates'
      exact hmakes
  · have hsize : 0 < o.partitionSize := by
      unfold CnotOptions.isUsable at ho
      simp [hsearch] at ho
      omega
    obtain ⟨gates, hgates, hmakes⟩ := exists_forMatrix hm hunit hsize
    unfold chooseGates
    rw [if_neg hsearch, hgates]
    exact ⟨gates, [], rfl, hmakes⟩

/-! ## Recipes -/

/-- The order in which a recipe delivers `n` rows. -/
def Recipe.rowOrder (r : Recipe) (n : Nat) : List Nat := r.order.getD (List.range n)

/-- The gates make the rows of the matrix in the order of the recipe. -/
structure Recipe.Delivers (m : BinaryMatrix) (o : CnotOptions) (r : Recipe) : Prop where
  isPermutation : IsRangePermutation m.size (r.rowOrder m.size)
  makes : Makes m.size r.gates ((r.rowOrder m.size).map m.row)
  order_eq_none : o.allowRewiring = false → r.order = none

/-- Gates that make the rows in their own order. -/
theorem Recipe.delivers_in_order {m : BinaryMatrix} {o : CnotOptions} {gates : List Cnot}
    (events : List Event) (h : Makes m.size gates m.rows) : Delivers m o ⟨gates, none, events⟩ :=
  ⟨isRangePermutation_range m.size, by rw [← map_row_range m] at h; exact h, fun _ => rfl⟩

/-- The matrix that gates are chosen for: if rewiring is allowed, its rows come in
elimination order. -/
def rearranged (m : BinaryMatrix) (allowRewiring : Bool) : Except SynthesisError BinaryMatrix :=
  if allowRewiring then do m.gatherRows (← eliminationOrder m) else return m

/-- There is a recipe, with the gates that are chosen for the rearranged matrix. -/
theorem exists_recipe_rearranged {m : BinaryMatrix} (hm : m.WellFormed)
    (hunit : IsUnit (rowMatrix m.size m.rows)) {o : CnotOptions} (ho : o.isUsable = true) :
    ∃ t r events, rearranged m o.allowRewiring = .ok t ∧ t.size = m.size ∧
      (∀ size, 1 ≤ size → ∃ gates, forMatrix t size = .ok gates) ∧
      chooseGates t o = .ok (r.gates, events) ∧ recipe m o = .ok r ∧ r.Delivers m o := by
  have hinv : m.isInvertible = true := isInvertible_iff_isUnit.mpr hunit
  unfold recipe rearranged
  rw [CnotOptions.validate_eq_ok_iff.mpr ho, hinv]
  by_cases hallow : o.allowRewiring = true
  · obtain ⟨order, horder, hperm⟩ := exists_eliminationOrder hunit
    have hsize : size ⟨order.map m.row⟩ = m.size := by rw [size, List.length_map, hperm.length_eq]
    have hm' : BinaryMatrix.WellFormed ⟨order.map m.row⟩ :=
      wellFormed_of_isSquare (isSquare_gathered hm.isSquare hperm) hm.size_le
    have hunit' : IsUnit (rowMatrix (size ⟨order.map m.row⟩) (order.map m.row)) := by
      rw [hsize]
      exact isUnit_gathered hperm hunit
    obtain ⟨gates, events, hgates, hmakes⟩ := exists_chooseGates hm' hunit' ho
    rw [hsize] at hmakes
    refine ⟨⟨order.map m.row⟩, ⟨gates, some order, .rowsReordered order :: events⟩, events, ?_,
      hsize, fun size hpos => (exists_forMatrix hm' hunit' hpos).imp fun _ h => h.1, hgates, ?_,
      hperm, hmakes, ?_⟩
    · rw [if_pos hallow, horder]
      exact gatherRows_eq_ok hperm
    · simp only [hallow, horder, gatherRows_eq_ok hperm, hgates, bind, Except.bind, if_true]
      rfl
    · intro hnot
      rw [hnot] at hallow
      cases hallow
  · obtain ⟨gates, events, hgates, hmakes⟩ := exists_chooseGates hm hunit ho
    refine ⟨m, ⟨gates, none, events⟩, events, if_neg hallow, rfl,
      fun size hpos => (exists_forMatrix hm hunit hpos).imp fun _ h => h.1, hgates, ?_,
      Recipe.delivers_in_order events hmakes⟩
    rw [if_neg hallow, hgates]
    rfl

theorem exists_recipe {m : BinaryMatrix} (hm : m.WellFormed)
    (hunit : IsUnit (rowMatrix m.size m.rows)) {o : CnotOptions} (ho : o.isUsable = true) :
    ∃ r, recipe m o = .ok r ∧ r.Delivers m o := by
  obtain ⟨-, r, -, -, -, -, -, hrecipe, hr⟩ := exists_recipe_rearranged hm hunit ho
  exact ⟨r, hrecipe, hr⟩

end Cnot

/-! ## Wire permutations -/

theorem Circuit.isRangePermutation_rewiring_ofQubits (n : Nat) :
    IsRangePermutation (ofQubits n).wireCount (ofQubits n).rewiring := by
  rw [ofQubits_wireCount, ofQubits_rewiring]
  exact isRangePermutation_range n

namespace Placement

variable {c : Circuit} {p : Placement} {n : Nat}

theorem Fits.nodup_indices (h : p.Fits c n) : (p.map Wire.index).Nodup := by
  rw [List.Nodup, List.pairwise_map]
  refine List.Pairwise.imp_of_mem ?_ h.distinct
  intro v w hv hw hne heq
  rw [Wire.sameWire_iff.mpr ⟨heq, by rw [h.isQubit v hv, h.isQubit w hw]⟩] at hne
  cases hne

theorem Fits.index_lt (h : p.Fits c n) {w : Wire} (hw : w ∈ p) : w.index < c.wireCount := by
  have hsome := h.onWires w hw
  unfold Circuit.track? at hsome
  by_contra hge
  rw [Array.getElem?_eq_none (Nat.le_of_not_lt hge)] at hsome
  cases hsome

end Placement

namespace Cnot

/-- The entries that an order writes to a wire permutation. -/
def orderWrites (rewiring : List Nat) (p : Placement) (order : List Nat) : List (Nat × Nat) :=
  (p.zip order).map fun w => (w.1.index, rewiring.getD (p.wire w.2).index 0)

theorem composeOrder_eq_foldl (rewiring : List Nat) (p : Placement) (order : List Nat) :
    composeOrder rewiring p order =
      (orderWrites rewiring p order).foldl (fun l w => l.set w.1 w.2) rewiring := by
  rw [orderWrites, List.foldl_map]
  rfl

section ComposeOrder

variable {c : Circuit} {p : Placement} {n : Nat} {rewiring order : List Nat}

theorem map_fst_orderWrites (rewiring : List Nat) (hlength : p.length ≤ order.length) :
    (orderWrites rewiring p order).map Prod.fst = p.map Wire.index := by
  rw [orderWrites, List.map_map]
  show (p.zip order).map (Wire.index ∘ Prod.fst) = _
  rw [← List.map_map, List.map_fst_zip hlength]

theorem mem_orderWrites (rewiring : List Nat) {i : Nat} (hp : i < p.length) (ho : i < order.length) :
    ((p.wire i).index, rewiring.getD (p.wire (order.getD i 0)).index 0) ∈
      orderWrites rewiring p order := by
  refine List.mem_map.mpr ⟨(p.wire i, order.getD i 0), ?_, rfl⟩
  refine List.mem_iff_getElem.mpr ⟨i, by simp [hp, ho], ?_⟩
  simp [Placement.wire, hp, ho]

/-- A row order on the placed qubits takes a wire permutation to another one. -/
theorem isRangePermutation_composeOrder (hp : p.Fits c n)
    (hrewiring : IsRangePermutation c.wireCount rewiring) (horder : IsRangePermutation n order) :
    IsRangePermutation c.wireCount (composeOrder rewiring p order) := by
  have hplaced := hp.length_eq
  have hordered := horder.length_eq
  have hfst : (orderWrites rewiring p order).map Prod.fst = p.map Wire.index :=
    map_fst_orderWrites rewiring (by omega)
  rw [composeOrder_eq_foldl]
  refine isRangePermutation_of_mem (by rw [length_foldl_set, hrewiring.length_eq]) fun v hv => ?_
  -- The entry `v` stood at some place `j`; it moves when `j` is a placed qubit.
  obtain ⟨j, hj, rfl⟩ := List.getElem_of_mem (hrewiring.mem hv)
  by_cases hmem : j ∈ p.map Wire.index
  · obtain ⟨w, hw, rfl⟩ := List.mem_map.mp hmem
    obtain ⟨q, hq, rfl⟩ := List.getElem_of_mem hw
    obtain ⟨i, hi, hiq⟩ := List.getElem_of_mem (horder.mem (show q < n by omega))
    have hwrite := mem_orderWrites rewiring (show i < p.length by omega) hi
    have hget : order.getD i 0 = q := by rw [List.getD_eq_getElem _ _ hi, hiq]
    rw [hget, Placement.wire_eq_getElem hq, List.getD_eq_getElem _ _ hj] at hwrite
    have hindex : (p.wire i).index < rewiring.length := by
      rw [hrewiring.length_eq]
      exact hp.index_lt (Placement.wire_mem (by omega))
    exact List.mem_of_getElem?
      (getElem?_foldl_set_of_mem (by rw [hfst]; exact hp.nodup_indices) hindex hwrite)
  · apply List.mem_of_getElem? (i := j)
    rw [getElem?_foldl_set_of_notMem (by rw [hfst]; exact hmem), List.getElem?_eq_getElem hj]

/-- On a fresh circuit a row order becomes the wire permutation. -/
theorem composeOrder_ofQubits (horder : IsRangePermutation n order) :
    composeOrder (List.range n) ((List.range n).map Wire.qubit) order = order := by
  have hordered := horder.length_eq
  have hfst : (orderWrites (List.range n) ((List.range n).map Wire.qubit) order).map Prod.fst =
      List.range n := by
    rw [map_fst_orderWrites _ (by simp [hordered]), List.map_map]
    exact List.map_id _
  rw [composeOrder_eq_foldl]
  apply List.ext_getElem?
  intro i
  by_cases hi : i < n
  · have hwrite := mem_orderWrites (List.range n)
      (show i < ((List.range n).map Wire.qubit).length by simpa using hi)
      (show i < order.length by omega)
    rw [Circuit.wire_ofQubits, Circuit.wire_ofQubits, Wire.index_qubit, Wire.index_qubit] at hwrite
    rw [List.getD_eq_getElem _ _ (by simpa using horder.getD_lt hi), List.getElem_range,
      List.getD_eq_getElem _ _ (show i < order.length by omega)] at hwrite
    rw [getElem?_foldl_set_of_mem (by rw [hfst]; exact List.nodup_range) (by simpa using hi) hwrite,
      List.getElem?_eq_getElem]
  · rw [List.getElem?_eq_none (by rw [length_foldl_set]; simpa using hi),
      List.getElem?_eq_none (by omega)]

end ComposeOrder

/-! ## Appending -/

/-- The circuit with the gates of a recipe and its row order. -/
def Recipe.placeOn (r : Recipe) (c : Circuit) (p : Placement) : Circuit :=
  { (r.gates.map (·.toGate p)).foldl Circuit.place c with
    rewiring := match r.order with
      | some order => composeOrder c.rewiring p order
      | none => c.rewiring }

/-- The row order of a recipe is accepted once its gates stand. -/
theorem Recipe.Delivers.rewire?_order {c : Circuit} {p : Placement} {m : BinaryMatrix} {o : CnotOptions}
    {r : Recipe} (hr : r.Delivers m o) (hp : p.Fits c m.size)
    (hrewiring : IsRangePermutation c.wireCount c.rewiring) :
    Edit.rewire? (r.order.map (composeOrder c.rewiring p))
      ((r.gates.map (·.toGate p)).foldl Circuit.place c) = .ok () (r.placeOn c p) := by
  unfold Recipe.placeOn
  cases horder : r.order with
  | none =>
    rw [← Circuit.foldl_place_rewiring (r.gates.map (·.toGate p)) c]
    rfl
  | some order =>
    have hperm := hr.isPermutation
    rw [Recipe.rowOrder, horder, Option.getD_some] at hperm
    have hcompose := isRangePermutation_composeOrder hp hrewiring hperm
    rw [← Circuit.foldl_place_wireCount (r.gates.map (·.toGate p)) c] at hcompose
    exact (Edit.guarded_rewire _ _).eq_ok hcompose

/-- Synthesis appends its recipe on an accepted placement. -/
theorem edit_of_recipe {m : BinaryMatrix} {o : CnotOptions} {r : Recipe}
    (hrecipe : recipe m o = .ok r) (hr : r.Delivers m o) {c : Circuit} {p : Placement}
    (hp : p.Fits c m.size) (hrewiring : IsRangePermutation c.wireCount c.rewiring) :
    edit p m o c = .ok (r.events ++ [.finished .cnot r.gates.length]) (r.placeOn c p) := by
  have hadmits : ∀ g ∈ r.gates.map (·.toGate p), c.Admits g := by
    intro g hg
    obtain ⟨t, ht, rfl⟩ := List.mem_map.mp hg
    have hwf := hr.makes.wellFormed t ht
    exact hp.admits_cx hwf.control_lt hwf.target_lt hwf.ne
  exact (lift_bind_ok (Placement.check_eq_ok_iff.mpr hp)).trans <| (lift_bind_ok hrecipe).trans <|
    (bind_ok (Edit.emitAll_of_admits hadmits)).trans (bind_ok (hr.rewire?_order hp hrewiring))

/-- One recipe delivers an invertible matrix, and synthesis appends it on every
accepted placement. -/
theorem exists_edit_eq_ok {m : BinaryMatrix} (hm : m.WellFormed)
    (hunit : IsUnit (rowMatrix m.size m.rows)) {o : CnotOptions} (ho : o.isUsable = true) :
    ∃ r events, Recipe.Delivers m o r ∧ ∀ (c : Circuit) (p : Placement), p.Fits c m.size →
      IsRangePermutation c.wireCount c.rewiring → edit p m o c = .ok events (r.placeOn c p) := by
  obtain ⟨r, hrecipe, hr⟩ := exists_recipe hm hunit ho
  exact ⟨r, _, hr, fun c p hp hrewiring => edit_of_recipe hrecipe hr hp hrewiring⟩

/-- On an accepted placement synthesis for an invertible matrix appends a
recipe that delivers it. -/
theorem edit_eq_ok {c : Circuit} {p : Placement} {m : BinaryMatrix} (hp : p.Fits c m.size)
    (hrewiring : IsRangePermutation c.wireCount c.rewiring) (hm : m.WellFormed)
    (hunit : IsUnit (rowMatrix m.size m.rows)) {o : CnotOptions} (ho : o.isUsable = true) :
    ∃ r events, Recipe.Delivers m o r ∧ edit p m o c = .ok events (r.placeOn c p) := by
  obtain ⟨r, events, hr, hedit⟩ := exists_edit_eq_ok hm hunit ho
  exact ⟨r, events, hr, hedit c p hp hrewiring⟩

theorem appendTo_eq_ok {c : Circuit} {p : Placement} {m : BinaryMatrix} (hp : p.Fits c m.size)
    (hrewiring : IsRangePermutation c.wireCount c.rewiring) (hm : m.WellFormed)
    (hunit : IsUnit (rowMatrix m.size m.rows)) {o : CnotOptions} (ho : o.isUsable = true) :
    ∃ r events, Recipe.Delivers m o r ∧ appendTo c p m o = .ok ⟨r.placeOn c p, events⟩ := by
  obtain ⟨r, events, hr, hedit⟩ := edit_eq_ok hp hrewiring hm hunit ho
  exact ⟨r, events, hr, Edit.apply_of_eq_ok hedit⟩

end Cnot

end CircuitSynthesis
