import CircuitSynthesis.Proofs.BinaryMatrix.Algebra
import CircuitSynthesis.Proofs.BinaryMatrix.Invertibility

/-!
# Inverses

Elimination on pairs succeeds on invertible matrices only, since what it leaves
behind is triangular (`isUnit_of_elimination`). So an inverse is computed
exactly when there is one over the field with two elements, and it is that one
(`inverse_eq_ok_iff`). From there both products with the matrix, the inverse of
the inverse and the inverse map on patterns follow (`inverse_laws`).
-/

namespace CircuitSynthesis

open BinaryMatrix

/-- What every successful step extends holds after every successful run. -/
theorem invariant_of_foldlM {σ : Type} {step : σ → Nat → Option σ} (Inv : Nat → σ → Prop)
    {a count : Nat}
    (hstep : ∀ i, a ≤ i → i < a + count → ∀ s s', Inv i s → step s i = some s' → Inv (i + 1) s')
    {s s' : σ} (hs : Inv a s) (hrun : (List.range' a count).foldlM step s = some s') :
    Inv (a + count) s' := by
  induction count generalizing s' with
  | zero =>
    cases hrun
    exact hs
  | succ count ih =>
    rw [List.range'_concat, List.foldlM_append, Nat.one_mul] at hrun
    obtain ⟨t, ht, hlast⟩ := Option.bind_eq_some_iff.mp hrun
    have hinv := ih (fun i hi hi' => hstep i hi (by omega)) ht
    refine hstep (a + count) (by omega) (by omega) t s' hinv ?_
    simpa using hlast

/-- Elimination on pairs that succeeds was on an invertible matrix, when a step
makes the common move on the first entries and fails without a pivot. -/
theorem isUnit_of_elimination {n : Nat} {rows : List Nat} {start pairs : List (Nat × Nat)}
    (step : List (Nat × Nat) → Nat → Option (List (Nat × Nat)))
    (selected : Nat → Nat → Prop) [∀ k, DecidablePred (selected k)]
    (hlength : rows.length = n) (hfst : start.map Prod.fst = rows)
    (hbelow : ∀ k i, k < i → selected k i) (hself : ∀ k, ¬selected k k)
    (hsome : ∀ {k pivot pairs}, k < pairs.length →
      firstFrom? (·.testBit k) k (pairs.map Prod.fst) = some pivot →
      ∃ pairs', step pairs k = some pairs' ∧
        pairs'.map Prod.fst = pivotRows (selected k) k pivot (pairs.map Prod.fst))
    (hnone : ∀ {k pairs}, firstFrom? (·.testBit k) k (pairs.map Prod.fst) = none →
      step pairs k = none)
    (hrun : (List.range n).foldlM step start = some pairs) : IsUnit (rowMatrix n rows) := by
  rw [List.range_eq_range'] at hrun
  have hstart : Eliminated n 0 rows (start.map Prod.fst) := by
    rw [hfst]
    exact .start hlength
  have hend : Eliminated n (0 + n) rows (pairs.map Prod.fst) := by
    refine invariant_of_foldlM (fun k pairs => Eliminated n k rows (pairs.map Prod.fst))
      (fun k _ hk pairs pairs' helim hstep => ?_) hstart hrun
    have hlength' : pairs.length = n := by simpa using helim.length_eq
    cases hpivot : firstFrom? (·.testBit k) k (pairs.map Prod.fst) with
    | none =>
      rw [hnone hpivot] at hstep
      cases hstep
    | some pivot =>
      obtain ⟨pairs'', hstep', hfst'⟩ := hsome (by omega) hpivot
      obtain rfl := Option.some.inj (hstep.symm.trans hstep')
      rw [hfst']
      exact helim.pivotRows hpivot (hbelow k) (hself k)
  rw [Nat.zero_add] at hend
  exact (hend.isUnit_iff hlength).mp hend.triangular.isUnit

theorem jordanStep_of_no_pivot {k : Nat} {pairs : List (Nat × Nat)}
    (h : firstFrom? (·.testBit k) k (pairs.map Prod.fst) = none) : jordanStep pairs k = none := by
  rw [firstFrom?_map] at h
  rw [jordanStep, h]
  rfl

variable {m i : BinaryMatrix}

/-- Only an invertible matrix has an inverse. -/
theorem isUnit_of_inverse (h : m.inverse = .ok i) : IsUnit (rowMatrix m.size m.rows) := by
  unfold inverse inverseRows? at h
  cases hrun : (List.range m.size).foldlM jordanStep (m.rows.zip (Bits.units m.size)) with
  | none => simp [hrun] at h
  | some pairs =>
    exact isUnit_of_elimination jordanStep (fun k i => i ≠ k) rfl
      (List.map_fst_zip (by simp [size])) (fun k i hi => by omega) (fun k => by simp)
      (fun hk hpivot => by
        obtain ⟨pairs', hstep, hfst, -⟩ := jordanStep_of_pivot hk hpivot
        exact ⟨pairs', hstep, hfst⟩)
      jordanStep_of_no_pivot hrun

theorem inverse_eq_singular (h : ¬IsUnit (rowMatrix m.size m.rows)) :
    m.inverse = .error .singular := by
  cases hi : m.inverse with
  | ok i => exact absurd (isUnit_of_inverse hi) h
  | error e =>
    unfold inverse at hi
    split at hi <;> cases hi
    rfl

namespace BinaryMatrix

/-- The inverse is the one matrix of the size that is inverse over the field. -/
theorem inverse_eq_ok_iff (hm : m.WellFormed) :
    m.inverse = .ok i ↔ IsSquare m.size i.rows ∧
      rowMatrix m.size i.rows * rowMatrix m.size m.rows = 1 := by
  constructor
  · intro h
    obtain ⟨j, hj, hsquare, hone⟩ := exists_inverse_of_isUnit hm (isUnit_of_inverse h)
    rw [h] at hj
    cases hj
    exact ⟨hsquare, hone⟩
  · rintro ⟨hi, hone⟩
    obtain ⟨j, hj, hsquare, hone'⟩ :=
      exists_inverse_of_isUnit hm (isUnit_iff_exists_inv'.mpr ⟨_, hone⟩)
    have hmatrix : rowMatrix m.size j.rows = rowMatrix m.size i.rows :=
      left_inv_eq_right_inv hone' (mul_eq_one_comm.mp hone)
    have hrows := eq_of_rowMatrix_eq hsquare hi hmatrix
    rw [hj]
    cases i
    exact congrArg (fun rows => Except.ok (BinaryMatrix.mk rows)) hrows

/-- **Inverses.** If an inverse is found, it is a matrix of its own right, both
products with it are the identity, the matrix is its inverse in turn, and it
takes the image of every pattern back to the pattern. Conversely, a matrix
whose product with the given one is the identity is found. -/
theorem inverse_laws (m : BinaryMatrix) (hm : m.WellFormed) :
    (∀ i, m.inverse = .ok i →
      ofRows i.rows = .ok i ∧
      (∃ e, identity m.size = .ok e ∧ m.mul i = .ok e ∧ i.mul m = .ok e) ∧
      i.inverse = .ok m ∧
      ∀ x < 2 ^ m.size, i.apply (m.apply x) = x) ∧
    ∀ i e, ofRows i.rows = .ok i → identity m.size = .ok e → i.mul m = .ok e →
      m.inverse = .ok i := by
  constructor
  · intro i h
    obtain ⟨hi, hone⟩ := (inverse_eq_ok_iff hm).mp h
    have hone' := mul_eq_one_comm.mp hone
    have hsize : i.size = m.size := hi.length_eq
    have hwf : i.WellFormed := wellFormed_of_isSquare hi hm.size_le
    have hmul : i.mul m = .ok ⟨Bits.units m.size⟩ :=
      (mul_eq_ok_iff hi hm.isSquare).mpr ⟨isSquare_units _, by rw [hone]; exact rowMatrix_units _⟩
    have hmul' : m.mul i = .ok ⟨Bits.units m.size⟩ :=
      (mul_eq_ok_iff hm.isSquare hi).mpr ⟨isSquare_units _, by rw [hone']; exact rowMatrix_units _⟩
    refine ⟨ofRows_eq_ok_iff.mpr ⟨rfl, hwf⟩, ⟨_, identity_eq_ok hm.size_le, hmul', hmul⟩, ?_, ?_⟩
    · rw [inverse_eq_ok_iff hwf, hsize]
      exact ⟨hm.isSquare, hone'⟩
    · intro x hx
      rw [← apply_of_mul_eq_ok hwf hm hmul x]
      exact apply_units hx
  · intro i e hi he hmul
    have hwf : i.WellFormed := (ofRows_eq_ok_iff.mp hi).2
    have hsquare : IsSquare m.size i.rows := by
      rw [← size_eq_of_mul_eq_ok hmul]
      exact hwf.isSquare
    rw [identity_eq_ok hm.size_le] at he
    cases he
    refine (inverse_eq_ok_iff hm).mpr ⟨hsquare, ?_⟩
    rw [← ((mul_eq_ok_iff hsquare hm.isSquare).mp hmul).2]
    exact rowMatrix_units _

/-- A matrix with a zero on its diagonal, so that elimination exchanges rows. -/
theorem inverse_laws_exchanged :
    WellFormed ⟨[6, 3, 13, 24, 9]⟩ ∧
      ∃ i, inverse ⟨[6, 3, 13, 24, 9]⟩ = .ok i ∧ i.inverse = .ok ⟨[6, 3, 13, 24, 9]⟩ ∧
        i.apply (apply ⟨[6, 3, 13, 24, 9]⟩ 19) = 19 := by
  have hm : WellFormed ⟨[6, 3, 13, 24, 9]⟩ := ⟨by decide, by decide⟩
  have hinvertible : isInvertible ⟨[6, 3, 13, 24, 9]⟩ = true := by decide +kernel
  obtain ⟨i, hi, -⟩ := exists_inverse_of_isUnit hm (isInvertible_iff_isUnit.mp hinvertible)
  obtain ⟨-, -, hback, happly⟩ := (inverse_laws _ hm).1 i hi
  exact ⟨hm, i, hi, hback, happly 19 (by decide)⟩

end BinaryMatrix

end CircuitSynthesis
