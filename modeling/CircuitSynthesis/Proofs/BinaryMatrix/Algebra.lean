import CircuitSynthesis.Proofs.BinaryMatrix.Field

/-!
# The algebra of matrices

A matrix maps bit patterns linearly: read as vectors, the image of a pattern is
the matrix times the pattern (`vector_apply_eq_mulVec`). Bits of a pattern
beyond the last column meet only zeros, so a pattern may be wider than the
matrix. The product of two matrices of one size is their product over the field
with two elements (`mul_eq_ok_iff`), and matrices are determined by what they
are over the field. So products compose the maps, and they obey the laws of
matrix algebra (`product_laws`).
-/

namespace CircuitSynthesis

open BinaryMatrix

/-! ## The linear map -/

theorem Bits.dotProduct_vector_eq_countP (n s t : Nat) :
    dotProduct (Bits.vector n s) (Bits.vector n t) =
      ((List.range n).countP (s &&& t).testBit : ZMod 2) := by
  induction n with
  | zero => rfl
  | succ n ih =>
    rw [dotProduct, Fin.sum_univ_castSucc, List.range_succ, List.countP_append, Nat.cast_add, ← ih]
    congr 1
    cases hs : s.testBit n <;> cases ht : t.testBit n <;> simp [Bits.vector_apply, hs, ht]

/-- The product of two bit sets as vectors is the parity of their overlap. -/
theorem Bits.dotProduct_vector {n s t : Nat} (ht : t < 2 ^ n) :
    dotProduct (Bits.vector n s) (Bits.vector n t) = if Bits.oddOverlap s t then 1 else 0 := by
  have hlt : s &&& t < 2 ^ n := Nat.lt_of_le_of_lt Nat.and_le_right ht
  rw [Bits.dotProduct_vector_eq_countP, ← Bits.weight_eq_countP hlt, Bits.oddOverlap]
  rcases Nat.mod_two_eq_zero_or_one (Bits.weight (s &&& t)) with h | h
  · rw [(ZMod.natCast_eq_zero_iff _ 2).mpr (Nat.dvd_of_mod_eq_zero h), h]
    rfl
  · rw [← ZMod.natCast_mod, h]
    rfl

theorem Bits.ofPredicate_lt (n : Nat) (p : Nat → Bool) : Bits.ofPredicate n p < 2 ^ n := by
  apply Nat.lt_pow_two_of_testBit
  intro i hi
  rw [Bits.testBit_ofPredicate, decide_eq_false (by omega), Bool.false_and]

/-- Every vector is the vector of a bit set. -/
theorem Bits.exists_vector_eq {n : Nat} (v : Fin n → ZMod 2) :
    ∃ x < 2 ^ n, Bits.vector n x = v := by
  refine ⟨Bits.ofPredicate n fun i => if h : i < n then v ⟨i, h⟩ == 1 else false,
    Bits.ofPredicate_lt _ _, ?_⟩
  funext j
  rw [Bits.vector_apply, Bits.testBit_ofPredicate, decide_eq_true j.isLt, dif_pos j.isLt]
  have hbit : ∀ b : ZMod 2, (if (true && b == 1) = true then (1 : ZMod 2) else 0) = b := by decide
  exact hbit (v j)

variable {n : Nat} {m a b c p : BinaryMatrix}

theorem apply_lt (m : BinaryMatrix) (x : Nat) : m.apply x < 2 ^ m.size := Bits.ofPredicate_lt _ _

theorem vector_apply_eq_mulVec (hsize : m.size = n) {x : Nat} (hx : x < 2 ^ n) :
    Bits.vector n (m.apply x) = Matrix.mulVec (rowMatrix n m.rows) (Bits.vector n x) := by
  subst hsize
  funext i
  rw [Bits.vector_apply, apply, Bits.testBit_ofPredicate, decide_eq_true i.isLt, Bool.true_and]
  exact (Bits.dotProduct_vector hx).symm

/-- The linear map keeps patterns apart exactly when its matrix is invertible. -/
theorem injOn_apply_iff_isUnit :
    Set.InjOn m.apply (Set.Iio (2 ^ m.size)) ↔ IsUnit (rowMatrix m.size m.rows) := by
  rw [← Matrix.mulVec_injective_iff_isUnit]
  constructor
  · intro h u v huv
    obtain ⟨x, hx, rfl⟩ := Bits.exists_vector_eq u
    obtain ⟨y, hy, rfl⟩ := Bits.exists_vector_eq v
    have happly : m.apply x = m.apply y := by
      apply Bits.eq_of_vector_eq (apply_lt m x) (apply_lt m y)
      rw [vector_apply_eq_mulVec rfl hx, vector_apply_eq_mulVec rfl hy]
      exact huv
    rw [h hx hy happly]
  · intro h x hx y hy hxy
    apply Bits.eq_of_vector_eq hx hy
    apply h
    show Matrix.mulVec _ _ = Matrix.mulVec _ _
    rw [← vector_apply_eq_mulVec rfl hx, ← vector_apply_eq_mulVec rfl hy, hxy]

/-- Bits of a pattern beyond the last column do not count. -/
theorem apply_mod_two_pow (hm : m.WellFormed) (x : Nat) :
    m.apply (x % 2 ^ m.size) = m.apply x := by
  have hmasked : ∀ i, m.row i &&& x % 2 ^ m.size = m.row i &&& x := by
    intro i
    apply Nat.eq_of_testBit_eq
    intro j
    rw [Nat.testBit_and, Nat.testBit_and, Nat.testBit_mod_two_pow]
    by_cases hj : j < m.size
    · simp [hj]
    · have hzero : (m.row i).testBit j = false :=
        Bits.testBit_eq_false_of_le (hm.isSquare.getD_lt i) (by omega)
      simp [hzero]
  unfold apply Bits.oddOverlap
  simp only [hmasked]

/-- The identity leaves the patterns of its size alone. -/
theorem apply_units {x : Nat} (hx : x < 2 ^ n) : apply ⟨Bits.units n⟩ x = x := by
  apply Nat.eq_of_testBit_eq
  intro i
  have hsize : size ⟨Bits.units n⟩ = n := Bits.length_units n
  rw [apply, Bits.testBit_ofPredicate, hsize]
  by_cases hi : i < n
  · rw [row, getD_units hi, Bits.oddOverlap_two_pow, decide_eq_true hi, Bool.true_and]
  · rw [decide_eq_false hi, Bool.false_and, Bits.testBit_eq_false_of_le hx (by omega)]

/-! ## Products -/

namespace BinaryMatrix

theorem identity_eq_ok (hn : n ≤ maxSize) : identity n = .ok ⟨Bits.units n⟩ := by
  rw [identity, admitQubits, if_pos hn]
  rfl

/-- A product is refused exactly for two sizes, and both are named. -/
theorem mul_eq_error_iff {e : SynthesisError} :
    a.mul b = .error e ↔ a.size ≠ b.size ∧ e = .dimension a.size b.size := by
  unfold mul
  split
  · next hsize => simp [hsize]
  · next hsize => simp [hsize, eq_comm]

theorem size_eq_of_mul_eq_ok (h : a.mul b = .ok p) : a.size = b.size := by
  by_contra hne
  rw [mul_eq_error_iff.mpr ⟨hne, rfl⟩] at h
  cases h

/-- The rows of a product are sums of rows of its second factor. -/
theorem WellFormed.mul (hb : b.WellFormed) (h : a.mul b = .ok p) : p.WellFormed := by
  have hsize := size_eq_of_mul_eq_ok h
  rw [BinaryMatrix.mul, if_pos hsize] at h
  cases h
  refine wellFormed_of_isSquare (n := b.size) ⟨?_, ?_⟩ hb.size_le
  · rw [List.length_map]
    exact hsize
  · exact List.forall_mem_map.mpr fun s _ => combination_lt hb.row_lt s

/-- The product of two matrices of one size is their product over the field. -/
theorem mul_eq_ok_iff (ha : IsSquare n a.rows) (hb : IsSquare n b.rows) :
    a.mul b = .ok p ↔ IsSquare n p.rows ∧
      rowMatrix n p.rows = rowMatrix n a.rows * rowMatrix n b.rows := by
  have hsize : a.size = b.size := ha.length_eq.trans hb.length_eq.symm
  have hsquare : IsSquare n (a.rows.map (combination b.rows)) :=
    ⟨by rw [List.length_map, ha.length_eq],
      List.forall_mem_map.mpr fun s _ => combination_lt hb.row_lt s⟩
  have hmatrix := rowMatrix_map_combination ha.length_eq hb.length_eq
  rw [mul, if_pos hsize]
  constructor
  · rintro ⟨⟩
    exact ⟨hsquare, hmatrix⟩
  · rintro ⟨hp, he⟩
    have hrows := eq_of_rowMatrix_eq hsquare hp (hmatrix.trans he.symm)
    cases p
    exact congrArg (fun rows => Except.ok (BinaryMatrix.mk rows)) hrows

theorem exists_mul (ha : IsSquare n a.rows) (hb : IsSquare n b.rows) :
    ∃ p, a.mul b = .ok p ∧ IsSquare n p.rows ∧
      rowMatrix n p.rows = rowMatrix n a.rows * rowMatrix n b.rows := by
  have hsize : a.size = b.size := ha.length_eq.trans hb.length_eq.symm
  have hmul : a.mul b = .ok ⟨a.rows.map (combination b.rows)⟩ := if_pos hsize
  exact ⟨_, hmul, (mul_eq_ok_iff ha hb).mp hmul⟩

/-- The product of two matrices maps a pattern by one after the other. -/
theorem apply_of_mul_eq_ok (ha : a.WellFormed) (hb : b.WellFormed) (h : a.mul b = .ok p)
    (x : Nat) : p.apply x = a.apply (b.apply x) := by
  have hsize : b.size = a.size := (size_eq_of_mul_eq_ok h).symm
  have hb' : IsSquare a.size b.rows := by rw [← hsize]; exact hb.isSquare
  obtain ⟨hp, hmatrix⟩ := (mul_eq_ok_iff ha.isSquare hb').mp h
  have hpsize : p.size = a.size := hp.length_eq
  -- It is enough to look at the columns that the matrices have.
  have hnarrow : ∀ y < 2 ^ a.size, p.apply y = a.apply (b.apply y) := by
    intro y hy
    have hlt : b.apply y < 2 ^ a.size := by rw [← hsize]; exact apply_lt b y
    apply Bits.eq_of_vector_eq (by rw [← hpsize]; exact apply_lt p y) (apply_lt a _)
    rw [vector_apply_eq_mulVec hpsize hy, vector_apply_eq_mulVec rfl hlt,
      vector_apply_eq_mulVec hsize hy, hmatrix, Matrix.mulVec_mulVec]
  rw [← apply_mod_two_pow (wellFormed_of_isSquare hp ha.size_le), ← apply_mod_two_pow hb, hpsize,
    hsize]
  exact hnarrow _ (Nat.mod_lt _ (Nat.two_pow_pos _))

theorem transpose_transpose (h : IsSquare n a.rows) : a.transpose.transpose = a := by
  have ht : IsSquare n a.transpose.rows := isSquare_transpose h.length_eq
  have hrows : a.transpose.transpose.rows = a.rows := by
    apply eq_of_rowMatrix_eq (isSquare_transpose ht.length_eq) h
    have houter : rowMatrix n a.transpose.transpose.rows = (rowMatrix n a.transpose.rows).transpose :=
      rowMatrix_transpose ht.length_eq
    have hinner : rowMatrix n a.transpose.rows = (rowMatrix n a.rows).transpose :=
      rowMatrix_transpose h.length_eq
    rw [houter, hinner, Matrix.transpose_transpose]
  cases a
  exact congrArg BinaryMatrix.mk hrows

/-- Transposition turns a product around. -/
theorem transpose_mul_transpose (ha : IsSquare n a.rows) (hb : IsSquare n b.rows)
    (h : a.mul b = .ok p) : b.transpose.mul a.transpose = .ok p.transpose := by
  obtain ⟨hp, hmatrix⟩ := (mul_eq_ok_iff ha hb).mp h
  have hat : rowMatrix n a.transpose.rows = (rowMatrix n a.rows).transpose :=
    rowMatrix_transpose ha.length_eq
  have hbt : rowMatrix n b.transpose.rows = (rowMatrix n b.rows).transpose :=
    rowMatrix_transpose hb.length_eq
  have hpt : rowMatrix n p.transpose.rows = (rowMatrix n p.rows).transpose :=
    rowMatrix_transpose hp.length_eq
  refine (mul_eq_ok_iff (isSquare_transpose hb.length_eq) (isSquare_transpose ha.length_eq)).mpr
    ⟨isSquare_transpose hp.length_eq, ?_⟩
  rw [hpt, hmatrix, Matrix.transpose_mul]
  exact congrArg₂ _ hbt.symm hat.symm

theorem mul_units (ha : IsSquare n a.rows) : a.mul ⟨Bits.units n⟩ = .ok a := by
  refine (mul_eq_ok_iff (b := ⟨Bits.units n⟩) ha (isSquare_units n)).mpr ⟨ha, ?_⟩
  show _ = _ * rowMatrix n (Bits.units n)
  rw [rowMatrix_units, Matrix.mul_one]

theorem units_mul (ha : IsSquare n a.rows) : mul ⟨Bits.units n⟩ a = .ok a := by
  refine (mul_eq_ok_iff (a := ⟨Bits.units n⟩) (isSquare_units n) ha).mpr ⟨ha, ?_⟩
  show _ = rowMatrix n (Bits.units n) * _
  rw [rowMatrix_units, Matrix.one_mul]

theorem exists_mul_assoc (ha : IsSquare n a.rows) (hb : IsSquare n b.rows)
    (hc : IsSquare n c.rows) :
    ∃ ab bc abc, a.mul b = .ok ab ∧ b.mul c = .ok bc ∧ ab.mul c = .ok abc ∧
      a.mul bc = .ok abc := by
  obtain ⟨ab, hab, hsquare, hmatrix⟩ := exists_mul ha hb
  obtain ⟨bc, hbc, hsquare', hmatrix'⟩ := exists_mul hb hc
  obtain ⟨abc, habc, hsquare'', hmatrix''⟩ := exists_mul hsquare hc
  refine ⟨ab, bc, abc, hab, hbc, habc, (mul_eq_ok_iff ha hsquare').mpr ⟨hsquare'', ?_⟩⟩
  rw [hmatrix'', hmatrix, hmatrix', Matrix.mul_assoc]

/-- **Algebra.** Matrices of one size have products. A product maps any pattern,
however wide, by one factor after the other; products are associative, the
identity of the size is their unit, and transposition is its own inverse and
turns products around. For two sizes, and only then, a product is refused. -/
theorem product_laws (a b c : BinaryMatrix) (ha : a.WellFormed) (hb : b.WellFormed)
    (hc : c.WellFormed) :
    (a.size = b.size → b.size = c.size → ∃ ab bc abc e,
      a.mul b = .ok ab ∧ b.mul c = .ok bc ∧ identity a.size = .ok e ∧
      (∀ x, ab.apply x = a.apply (b.apply x)) ∧
      (ab.mul c = .ok abc ∧ a.mul bc = .ok abc) ∧
      (a.mul e = .ok a ∧ e.mul a = .ok a) ∧
      b.transpose.mul a.transpose = .ok ab.transpose) ∧
    a.transpose.transpose = a ∧
    (∀ e, a.mul b = .error e ↔ a.size ≠ b.size ∧ e = .dimension a.size b.size) := by
  refine ⟨fun hab hbc => ?_, transpose_transpose ha.isSquare, fun e => mul_eq_error_iff⟩
  have hb' : IsSquare a.size b.rows := by rw [hab]; exact hb.isSquare
  have hc' : IsSquare a.size c.rows := by rw [hab, hbc]; exact hc.isSquare
  obtain ⟨ab, bc, abc, hmul, hmul', hleft, hright⟩ := exists_mul_assoc ha.isSquare hb' hc'
  exact ⟨ab, bc, abc, _, hmul, hmul', identity_eq_ok ha.size_le, apply_of_mul_eq_ok ha hb hmul,
    ⟨hleft, hright⟩, ⟨mul_units ha.isSquare, units_mul ha.isSquare⟩,
    transpose_mul_transpose ha.isSquare hb' hmul⟩

/-- Three matrices that do not commute, and a pattern that fills the whole word. -/
theorem product_laws_whole_word :
    WellFormed ⟨[3, 6, 5]⟩ ∧ WellFormed ⟨[2, 4, 1]⟩ ∧ WellFormed ⟨[1, 3, 7]⟩ ∧
      (∃ ab, mul ⟨[3, 6, 5]⟩ ⟨[2, 4, 1]⟩ = .ok ab ∧
        ab.apply (2 ^ 64 - 2) = apply ⟨[3, 6, 5]⟩ (apply ⟨[2, 4, 1]⟩ (2 ^ 64 - 2)) ∧
        mul (transpose ⟨[2, 4, 1]⟩) (transpose ⟨[3, 6, 5]⟩) = .ok ab.transpose) ∧
      mul ⟨[3, 6, 5]⟩ ⟨[1, 2]⟩ = .error (.dimension 3 2) := by
  have ha : WellFormed ⟨[3, 6, 5]⟩ := ⟨by decide, by decide⟩
  have hb : WellFormed ⟨[2, 4, 1]⟩ := ⟨by decide, by decide⟩
  have hc : WellFormed ⟨[1, 3, 7]⟩ := ⟨by decide, by decide⟩
  have hd : WellFormed ⟨[1, 2]⟩ := ⟨by decide, by decide⟩
  obtain ⟨ab, bc, abc, e, hmul, -, -, happly, -, -, htranspose⟩ :=
    (product_laws _ _ _ ha hb hc).1 rfl rfl
  exact ⟨ha, hb, hc, ⟨ab, hmul, happly _, htranspose⟩,
    ((product_laws _ _ _ ha hd hc).2.2 _).mpr ⟨by decide, rfl⟩⟩

end BinaryMatrix

end CircuitSynthesis
