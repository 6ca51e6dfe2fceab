import CircuitSynthesis.Proofs.BinaryMatrix.Triangular

/-!
# Independent rows

Rows are independent on some columns if no sum of one or more of them vanishes
there. A row that starts where the others have been looked at completely is
independent of them (`IndependentOn.extend`), and adding earlier rows to later
ones keeps the first rows independent (`IndependentOn.of_earlierAdded`).

In a matrix whose leading squares all have independent rows, elimination that
only adds earlier rows to later ones finds a one on the diagonal in every column
(`LeadingRegular.diagonal`), since such additions keep the property. Triangles
with ones on the diagonal are of this kind.
-/

namespace CircuitSynthesis

/-- Only the empty sum of the first `count` rows vanishes on the first `k`
columns. -/
def IndependentOn (count k : Nat) (rows : List Nat) : Prop :=
  ∀ s < 2 ^ count, (∀ j < k, (combination rows s).testBit j = false) → s = 0

variable {n k count : Nat} {rows rows' : List Nat}

theorem independentOn_zero (k : Nat) (rows : List Nat) : IndependentOn 0 k rows := by
  intro s hs _
  rw [Nat.pow_zero] at hs
  omega

theorem IndependentOn.mono (h : IndependentOn count k rows) {k' : Nat} (hk : k ≤ k') :
    IndependentOn count k' rows :=
  fun s hs hzero => h s hs fun j hj => hzero j (Nat.lt_of_lt_of_le hj hk)

/-- Different sets of independent rows have different sums. -/
theorem IndependentOn.eq_of_combination_eq (h : IndependentOn count k rows) {s t : Nat}
    (hs : s < 2 ^ count) (ht : t < 2 ^ count) (heq : combination rows s = combination rows t) :
    s = t := by
  have hzero : s ^^^ t = 0 := by
    apply h _ (Nat.xor_lt_two_pow hs ht)
    intro j _
    rw [combination_xor, heq, Nat.xor_self, Nat.zero_testBit]
  calc s = (s ^^^ t) ^^^ t := by rw [Nat.xor_assoc, Nat.xor_self, Nat.xor_zero]
    _ = t := by rw [hzero, Nat.zero_xor]

/-- A row whose first one is in column `k` is independent of rows that are so
before this column. -/
theorem IndependentOn.extend (h : IndependentOn count k rows)
    (hzero : ∀ j < k, (rows.getD count 0).testBit j = false)
    (hone : (rows.getD count 0).testBit k = true) : IndependentOn (count + 1) (k + 1) rows := by
  intro s hs hvanish
  rcases Bits.lt_or_exists_xor hs with hlow | ⟨t, ht, rfl⟩
  · exact h s hlow fun j hj => hvanish j (Nat.lt_succ_of_lt hj)
  · have hsum : combination rows (2 ^ count ^^^ t) = rows.getD count 0 ^^^ combination rows t := by
      rw [combination_xor, combination_two_pow]
    -- Before column `k` the row adds nothing, so there the others vanish by themselves.
    have hrest : t = 0 := by
      apply h t ht
      intro j hj
      have hbit := hvanish j (Nat.lt_succ_of_lt hj)
      rwa [hsum, Nat.testBit_xor, hzero j hj, Bool.false_xor] at hbit
    have hbit := hvanish k (Nat.lt_succ_self k)
    rw [hsum, hrest, combination_zero, Nat.xor_zero, hone] at hbit
    cases hbit

/-! ## Adding earlier rows to later ones -/

/-- The first `n` rows of `rows'` are those of `rows`, each with a sum of
earlier rows added, all of them among the first `k`. -/
def EarlierAdded (n k : Nat) (rows rows' : List Nat) : Prop :=
  ∀ r < n, ∃ u < 2 ^ min r k, rows'.getD r 0 = rows.getD r 0 ^^^ combination rows u

theorem earlierAdded_of_eq (k : Nat) (hrows : ∀ r < n, rows'.getD r 0 = rows.getD r 0) :
    EarlierAdded n k rows rows' := by
  intro r hr
  refine ⟨0, Nat.two_pow_pos _, ?_⟩
  rw [combination_zero, Nat.xor_zero, hrows r hr]

/-- A sum of the changed rows is a sum of the rows before the change, and not the
empty one unless it was empty. -/
theorem EarlierAdded.exists_combination (h : EarlierAdded n k rows rows') (hcount : count ≤ n)
    {s : Nat} (hs : s < 2 ^ count) :
    ∃ t < 2 ^ count, combination rows' s = combination rows t ∧ (t = 0 → s = 0) := by
  induction count generalizing s with
  | zero =>
    obtain rfl : s = 0 := by
      rw [Nat.pow_zero] at hs
      omega
    exact ⟨0, hs, by rw [combination_zero, combination_zero], fun h => h⟩
  | succ count ih =>
    have hpow : 2 ^ count < 2 ^ (count + 1) := Nat.pow_lt_pow_right (by omega) (by omega)
    rcases Bits.lt_or_exists_xor hs with hlow | ⟨s, hlow, rfl⟩
    · obtain ⟨t, ht, hsum, hempty⟩ := ih (by omega) hlow
      exact ⟨t, by omega, hsum, hempty⟩
    · obtain ⟨t, ht, hsum, -⟩ := ih (by omega) hlow
      obtain ⟨u, hu, hrow⟩ := h count (by omega)
      have hu' : u < 2 ^ count :=
        Nat.lt_of_lt_of_le hu (Nat.pow_le_pow_right (by omega) (Nat.min_le_left _ _))
      have hut : u ^^^ t < 2 ^ count := Nat.xor_lt_two_pow hu' ht
      refine ⟨2 ^ count ^^^ (u ^^^ t), Nat.xor_lt_two_pow hpow (by omega), ?_, fun hempty => ?_⟩
      · rw [combination_xor, combination_two_pow, hrow, hsum, combination_xor, combination_xor,
          combination_two_pow, Nat.xor_assoc]
      · -- The row itself stays in the sum.
        have hbit := congrArg (·.testBit count) hempty
        simp [Nat.testBit_lt_two_pow hut] at hbit

theorem IndependentOn.of_earlierAdded (h : IndependentOn count k rows) {k' : Nat}
    (hadded : EarlierAdded n k' rows rows') (hcount : count ≤ n) :
    IndependentOn count k rows' := by
  intro s hs hvanish
  obtain ⟨t, ht, hsum, hempty⟩ := hadded.exists_combination hcount hs
  rw [hsum] at hvanish
  exact hempty (h t ht hvanish)

/-- Only the first rows count. -/
theorem IndependentOn.congr (h : IndependentOn count k rows)
    (hrows : ∀ r < count, rows'.getD r 0 = rows.getD r 0) : IndependentOn count k rows' :=
  h.of_earlierAdded (earlierAdded_of_eq 0 hrows) (Nat.le_refl count)

/-! ## Leading squares -/

/-- For every `k`, the first `k` rows are independent on the first `k` columns. -/
def LeadingRegular (n : Nat) (rows : List Nat) : Prop := ∀ k ≤ n, IndependentOn k k rows

theorem LeadingRegular.of_earlierAdded (h : LeadingRegular n rows)
    (hadded : EarlierAdded n k rows rows') : LeadingRegular n rows' :=
  fun j hj => (h j hj).of_earlierAdded hadded hj

theorem LeadingRegular.addRow (h : LeadingRegular n rows) (hlength : rows.length = n)
    {dst src : Nat} (hsrc : src < dst) (hdst : dst < n) :
    LeadingRegular n (addRow rows dst src) := by
  refine h.of_earlierAdded (k := n) fun r hr => ?_
  rw [getD_addRow (by omega)]
  by_cases hrd : r = dst
  · subst hrd
    refine ⟨2 ^ src, Nat.pow_lt_pow_right (by omega) (by omega), ?_⟩
    rw [if_pos rfl, combination_two_pow]
  · refine ⟨0, Nat.two_pow_pos _, ?_⟩
    rw [if_neg hrd, combination_zero, Nat.xor_zero]

/-- Once the columns before `k` are cleared below the diagonal, there is a one
on the diagonal of column `k`. -/
theorem LeadingRegular.diagonal (h : LeadingRegular n rows) (htriangular : TriangularTo n k rows)
    (hk : k < n) : (rows.getD k 0).testBit k = true := by
  by_contra hzero
  -- Otherwise row `k` vanishes up to column `k` all by itself.
  have hpow : 2 ^ k < 2 ^ (k + 1) := Nat.pow_lt_pow_right (by omega) (by omega)
  have hempty : 2 ^ k = 0 := by
    apply h (k + 1) hk _ hpow
    intro j hj
    rw [combination_two_pow]
    rcases Nat.lt_succ_iff_lt_or_eq.mp hj with hlt | rfl
    · exact htriangular.below hlt hlt hk
    · simpa using hzero
  exact absurd hempty (Nat.two_pow_pos k).ne'

theorem TriangularTo.leadingRegular (h : TriangularTo n n rows) : LeadingRegular n rows := by
  intro k hk
  induction k with
  | zero => exact independentOn_zero 0 rows
  | succ k ih => exact (ih (by omega)).extend (fun j hj => h.below (by omega) hj hk) (h.diagonal hk)

end CircuitSynthesis
