import CircuitSynthesis.Synthesis.Error

/-!
# Reversible functions

A reversible function on bit patterns of a given width, as its truth table.
The table is a permutation of the patterns by construction: `ofTable` checks
it, and the inverse is a table again.
-/

namespace CircuitSynthesis

/-- Largest supported width. -/
def ReversibleFunction.maxWidth : Nat := 24

/-- A bijection on the patterns below `2 ^ width`; entry `x` of the table is
the image of `x`. -/
structure ReversibleFunction where
  width : Nat
  table : Array Nat
  width_le : width ≤ ReversibleFunction.maxWidth
  isPermutation : IsRangePermutation (2 ^ width) table.toList

namespace ReversibleFunction

theorem size_table (f : ReversibleFunction) : f.table.size = 2 ^ f.width :=
  f.isPermutation.length_eq

/-- Number of patterns. -/
def size (f : ReversibleFunction) : Nat := f.table.size

/-- The image of a pattern, if it is in range. -/
def image? (f : ReversibleFunction) (x : Nat) : Option Nat := f.table[x]?

/-- The entries `0`, `1`, ..., `n - 1`. -/
def identityTable (n : Nat) : Array Nat := (List.range n).toArray

theorem isRangePermutation_identityTable (n : Nat) :
    IsRangePermutation n (identityTable n).toList :=
  ⟨by simp [identityTable], by simp [identityTable, List.nodup_range], by simp [identityTable]⟩

/-- Every pattern maps to itself. -/
def isIdentity (f : ReversibleFunction) : Bool := f.table == identityTable f.size

/-- The identity on patterns of the given width. -/
def identity (width : Nat) : Except SynthesisError ReversibleFunction :=
  if h : width ≤ maxWidth then
    .ok ⟨width, identityTable (2 ^ width), h, isRangePermutation_identityTable _⟩
  else .error (.tooManyQubits width maxWidth)

/-- A reversible function from its truth table. The length is judged first,
then the entries in order. -/
def ofTable (table : Array Nat) : Except SynthesisError ReversibleFunction :=
  let width := table.size.log2
  if h : table.size = 2 ^ width ∧ width ≤ maxWidth then
    match hf : RangePermutation.firstFault table.size table.toList with
    | some (.repeated v) => .error (.repeatedValue v)
    | some (.outOfRange v) => .error (.valueOutOfRange v table.size)
    | none => .ok ⟨width, table, h.2, RangePermutation.isRangePermutation_iff.2
        ⟨by simpa using h.1, by rwa [h.1] at hf⟩⟩
  else .error (.tableLength table.size)

/-! ## The inverse -/

/-- Write position `i` at entry `v` for each value `v` at position `i`. -/
def invert (values : List Nat) (start : Nat) (table : Array Nat) : Array Nat :=
  (values.zipIdx start).foldl (fun t (v, i) => t.setIfInBounds v i) table

@[simp] theorem invert_cons (v : Nat) (values : List Nat) (start : Nat) (table : Array Nat) :
    invert (v :: values) start table =
      invert values (start + 1) (table.setIfInBounds v start) := rfl

@[simp] theorem size_invert (values : List Nat) (start : Nat) (table : Array Nat) :
    (invert values start table).size = table.size := by
  induction values generalizing start table with
  | nil => rfl
  | cons v values ih => rw [invert_cons, ih, Array.size_setIfInBounds]

theorem getElem?_invert_of_not_mem {values : List Nat} {v : Nat} (h : v ∉ values) (start : Nat)
    (table : Array Nat) : (invert values start table)[v]? = table[v]? := by
  induction values generalizing start table with
  | nil => rfl
  | cons w values ih =>
    rw [List.mem_cons, not_or] at h
    rw [invert_cons, ih h.2, Array.getElem?_setIfInBounds_ne (Ne.symm h.1)]

/-- At each listed value stands its position. -/
theorem getElem?_invert {values : List Nat} (hn : values.Nodup) (start : Nat) (table : Array Nat)
    {i : Nat} (hi : i < values.length) (hv : values[i] < table.size) :
    (invert values start table)[values[i]]? = some (start + i) := by
  induction values generalizing start table i with
  | nil => simp at hi
  | cons v values ih =>
    obtain ⟨hnot, hn⟩ := List.nodup_cons.1 hn
    rw [invert_cons]
    cases i with
    | zero =>
      simp only [List.getElem_cons_zero] at hv ⊢
      rw [getElem?_invert_of_not_mem hnot]
      simp [hv]
    | succ i =>
      simp only [List.getElem_cons_succ] at hv ⊢
      rw [ih hn _ _ (by simpa using hi) (by simpa using hv)]
      congr 1
      omega

/-- The inverse table has position `i` at the entry of the image of `i`. -/
def inverseTable (table : Array Nat) : Array Nat :=
  invert table.toList 0 (Array.replicate table.size 0)

/-- At the image of `i` the inverse table holds `i`. -/
theorem getElem?_inverseTable {table : Array Nat}
    (h : IsRangePermutation table.size table.toList) {i v : Nat} (hi : table[i]? = some v) :
    (inverseTable table)[v]? = some i := by
  obtain ⟨hlt, rfl⟩ := Array.getElem?_eq_some_iff.1 hi
  have := getElem?_invert h.nodup 0 (Array.replicate table.size 0) (i := i) (by simpa using hlt)
    (by simpa using h.lt _ (Array.getElem_mem_toList hlt))
  simpa [inverseTable] using this

/-- Each entry of the inverse table is the position of its index. -/
theorem getElem?_of_inverseTable {table : Array Nat}
    (h : IsRangePermutation table.size table.toList) {i v : Nat}
    (hv : (inverseTable table)[v]? = some i) : table[i]? = some v := by
  have hsize : v < table.size := by
    have := (Array.getElem?_eq_some_iff.1 hv).1
    simpa [inverseTable] using this
  obtain ⟨j, hj, rfl⟩ := List.getElem_of_mem (h.mem hsize)
  have hj' : table[j]? = some (table.toList[j]) := by simp
  have := getElem?_inverseTable h hj'
  rw [hv] at this
  cases this
  exact hj'

theorem isRangePermutation_inverseTable {table : Array Nat}
    (h : IsRangePermutation table.size table.toList) :
    IsRangePermutation table.size (inverseTable table).toList := by
  refine ⟨by simp [inverseTable], ?_, ?_⟩
  · rw [List.nodup_iff_pairwise_ne, List.pairwise_iff_getElem]
    intro i j hi hj hij he
    have hi' := getElem?_of_inverseTable h (v := i) (i := (inverseTable table).toList[i]) (by simp)
    have hj' := getElem?_of_inverseTable h (v := j) (i := (inverseTable table).toList[j]) (by simp)
    rw [he, hj'] at hi'
    cases hi'
    omega
  · intro v hv
    obtain ⟨i, hi, rfl⟩ := List.getElem_of_mem hv
    have := getElem?_of_inverseTable h (v := i) (i := (inverseTable table).toList[i]) (by simp)
    exact (Array.getElem?_eq_some_iff.1 this).1

/-- The inverse function. -/
def inverse (f : ReversibleFunction) : ReversibleFunction where
  width := f.width
  table := inverseTable f.table
  width_le := f.width_le
  isPermutation := by
    have h : IsRangePermutation f.table.size f.table.toList := f.size_table ▸ f.isPermutation
    exact f.size_table ▸ isRangePermutation_inverseTable h

end ReversibleFunction

end CircuitSynthesis
