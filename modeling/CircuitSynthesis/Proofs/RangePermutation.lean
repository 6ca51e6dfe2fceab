import CircuitSynthesis.History
import CircuitSynthesis.Proofs.BinaryMatrix.RowOrder
import CircuitSynthesis.Proofs.Circuit.Append

/-!
# Checked permutations and their inverses

Row orders, wire permutations and truth tables go through one scan. It looks
for values that are repeated or out of range, and never for values that are
left out; but a list of the right length has no room to leave one out, so what
passes names each number exactly once (`listsEachOnce_iff`). On this rest the
inverse laws: a table and its inverse undo each other (`image?_inverse_eq_some_iff`),
and so do gathering and scattering the rows of a matrix.
-/

namespace CircuitSynthesis

/-- Each number below `n` occurs once, and no other number occurs. -/
def ListsEachOnce (n : Nat) (values : List Nat) : Prop :=
  ∀ v, values.count v = if v < n then 1 else 0

theorem listsEachOnce_iff {n : Nat} {values : List Nat} :
    ListsEachOnce n values ↔ IsRangePermutation n values := by
  have hcount : ListsEachOnce n values ↔ values.Perm (List.range n) := by
    rw [List.perm_iff_count]
    exact forall_congr' fun v => by rw [List.count_range]
  rw [hcount]
  constructor
  · intro hperm
    exact isRangePermutation_of_mem (by rw [hperm.length_eq, List.length_range])
      fun v hv => hperm.mem_iff.mpr (List.mem_range.mpr hv)
  · exact perm_range_of_isRangePermutation

/-! ## Truth tables -/

namespace ReversibleFunction

variable {f g : ReversibleFunction} {table : Array Nat} {i v : Nat}

/-- The width can be told from the table. -/
theorem eq_of_table_eq (h : f.table = g.table) : f = g := by
  have hwidth : f.width = g.width := by
    apply Nat.pow_right_injective (Nat.le_refl 2)
    show 2 ^ f.width = 2 ^ g.width
    rw [← f.size_table, ← g.size_table, h]
  cases f
  cases g
  cases hwidth
  cases h
  rfl

/-- A table is accepted exactly when it is the table of a reversible function. -/
theorem ofTable_eq_ok_iff : ofTable table = .ok f ↔ f.table = table := by
  constructor
  · intro h
    unfold ofTable at h
    simp only at h
    split at h
    · split at h
      · cases h
      · cases h
      · cases h
        rfl
    · cases h
  · rintro rfl
    have hlog : f.table.size.log2 = f.width := by rw [f.size_table, Nat.log2_two_pow]
    have hfault : RangePermutation.firstFault f.table.size f.table.toList = none := by
      rw [f.size_table]
      exact (RangePermutation.isRangePermutation_iff.mp f.isPermutation).2
    have hlength : f.table.size = 2 ^ f.table.size.log2 ∧ f.table.size.log2 ≤ maxWidth := by
      rw [hlog]
      exact ⟨f.size_table, f.width_le⟩
    unfold ofTable
    simp only [dif_pos hlength]
    split
    · next hsome => rw [hfault] at hsome; cases hsome
    · next hsome => rw [hfault] at hsome; cases hsome
    · exact congrArg Except.ok (eq_of_table_eq rfl)

theorem exists_ofTable_iff : (∃ f, ofTable table = .ok f) ↔
    IsRangePermutation table.size table.toList ∧ ∃ k ≤ maxWidth, table.size = 2 ^ k := by
  constructor
  · rintro ⟨f, hf⟩
    obtain rfl := ofTable_eq_ok_iff.mp hf
    refine ⟨?_, f.width, f.width_le, f.size_table⟩
    rw [f.size_table]
    exact f.isPermutation
  · rintro ⟨hperm, k, hk, hsize⟩
    exact ⟨⟨k, table, hk, hsize ▸ hperm⟩, ofTable_eq_ok_iff.mpr rfl⟩

/-- The inverse takes an image back, and nothing else to the same place. -/
theorem image?_inverse_eq_some_iff : f.inverse.image? v = some i ↔ f.image? i = some v := by
  have hperm : IsRangePermutation f.table.size f.table.toList := f.size_table ▸ f.isPermutation
  exact ⟨getElem?_of_inverseTable hperm, getElem?_inverseTable hperm⟩

theorem size_inverse (f : ReversibleFunction) : f.inverse.size = f.size := by
  rw [size, size, f.inverse.size_table, f.size_table]
  rfl

theorem inverse_inverse (f : ReversibleFunction) : f.inverse.inverse = f := by
  apply eq_of_table_eq
  apply Array.ext_getElem?
  intro i
  apply Option.ext
  intro v
  show f.inverse.inverse.image? i = some v ↔ f.image? i = some v
  rw [image?_inverse_eq_some_iff, image?_inverse_eq_some_iff]

/-- A pattern goes to its image and from there back to itself. -/
theorem image?_bind_inverse (hi : i < f.size) : (f.image? i).bind f.inverse.image? = some i := by
  obtain ⟨v, himage⟩ : ∃ v, f.image? i = some v := ⟨_, Array.getElem?_eq_getElem hi⟩
  rw [himage]
  exact image?_inverse_eq_some_iff.mpr himage

end ReversibleFunction

/-! ## All checks and inverses -/

/-- **Checked permutations.** A list passes as a row order, and as the wire
permutation of a circuit, exactly when it names each number below the bound once;
as a truth table it must also be as long as a power of two up to `2 ^ 24`. A
refused wire permutation changes nothing. Every reversible function and its
inverse undo each other, on either side, and the inverse of the inverse is the
function. A row order undoes its own gathering of rows by scattering them, up to
the check of the rows, which those of a well formed matrix pass, and the other
way round. -/
theorem rangePermutation_laws :
    (∀ values n, BinaryMatrix.admitOrder values n = .ok () ↔ ListsEachOnce n values) ∧
    (∀ (values : List Nat) (c : Circuit),
      ((∃ u d, Circuit.rewire values c = .ok u d) ↔ ListsEachOnce c.wireCount values) ∧
      (∀ u d, Circuit.rewire values c = .ok u d → d = { c with rewiring := values }) ∧
      ∀ e d, Circuit.rewire values c = .error e d →
        d = c ∧ (Request.rewire values).perform c = c) ∧
    (∀ values : List Nat,
      ((∃ f, ReversibleFunction.ofTable values.toArray = .ok f) ↔
        ListsEachOnce values.length values ∧ ∃ k ≤ 24, values.length = 2 ^ k) ∧
      ∀ f, ReversibleFunction.ofTable values.toArray = .ok f → f.table.toList = values) ∧
    (∀ f : ReversibleFunction,
      (∀ i < f.size, (f.image? i).bind f.inverse.image? = some i ∧
        (f.inverse.image? i).bind f.image? = some i) ∧
      f.inverse.inverse = f) ∧
    ∀ (m : BinaryMatrix) (order : List Nat), ListsEachOnce m.size order →
      (∃ g, m.gatherRows order = .ok g ∧ g.scatterRows order = BinaryMatrix.ofRows m.rows) ∧
      (∀ s, m.scatterRows order = .ok s → s.gatherRows order = .ok m) ∧
      (m.WellFormed →
        (∃ g, m.gatherRows order = .ok g ∧ g.scatterRows order = .ok m) ∧
        ∃ s, m.scatterRows order = .ok s ∧ s.gatherRows order = .ok m) := by
  simp only [listsEachOnce_iff]
  refine ⟨fun values n => BinaryMatrix.admitOrder_eq_ok_iff, fun values c => ?_, fun values => ?_,
    fun f => ?_, fun m order horder => ?_⟩
  · have hrewire := Circuit.guarded_rewire c values
    refine ⟨hrewire.atomic.succeeds_iff, fun u d hok => (hrewire.eq_ok_iff.mp hok).2.2,
      fun e d herror => ?_⟩
    obtain rfl := hrewire.atomic.unchanged e d herror
    exact ⟨rfl, by rw [Request.perform, stateAfter, herror]⟩
  · refine ⟨ReversibleFunction.exists_ofTable_iff, fun f hf => ?_⟩
    rw [ReversibleFunction.ofTable_eq_ok_iff.mp hf]
  · refine ⟨fun i hi => ⟨ReversibleFunction.image?_bind_inverse hi, ?_⟩, f.inverse_inverse⟩
    have hback := f.inverse.image?_bind_inverse (f.size_inverse.symm ▸ hi)
    rwa [f.inverse_inverse] at hback
  · have hgather := BinaryMatrix.gatherRows_eq_ok horder
    have hback := BinaryMatrix.scatterRows_gathered horder
    refine ⟨⟨_, hgather, hback⟩, fun s hs => ?_, fun hm => ⟨⟨_, hgather, ?_⟩, ?_⟩⟩
    · rw [BinaryMatrix.scatterRows_eq horder] at hs
      obtain ⟨hrows, -⟩ := BinaryMatrix.ofRows_eq_ok_iff.mp hs
      rw [show s = ⟨m.scattered order⟩ from congrArg BinaryMatrix.mk hrows]
      exact BinaryMatrix.gatherRows_scattered horder
    · rw [hback]
      exact BinaryMatrix.ofRows_eq_ok_iff.mpr ⟨rfl, hm⟩
    · exact ⟨_, hm.scatterRows_eq_ok horder, BinaryMatrix.gatherRows_scattered horder⟩

/-- A cycle of three rows, which is not its own inverse, and a table of four
patterns on top of it. -/
theorem rangePermutation_laws_cycle :
    ListsEachOnce 3 [1, 2, 0] ∧
      (∃ g, BinaryMatrix.gatherRows ⟨[6, 3, 1]⟩ [1, 2, 0] = .ok g ∧ g.rows = [3, 1, 6] ∧
        g.scatterRows [1, 2, 0] = .ok ⟨[6, 3, 1]⟩) ∧
      ∃ f, ReversibleFunction.ofTable #[1, 2, 0, 3] = .ok f ∧ f.table.toList = [1, 2, 0, 3] ∧
        (f.image? 0).bind f.inverse.image? = some 0 := by
  have horder : ListsEachOnce 3 [1, 2, 0] :=
    listsEachOnce_iff.mpr (RangePermutation.isRangePermutation_iff.mpr (by decide))
  have htable : ListsEachOnce 4 [1, 2, 0, 3] :=
    listsEachOnce_iff.mpr (RangePermutation.isRangePermutation_iff.mpr (by decide))
  obtain ⟨-, -, htables, hinverses, horders⟩ := rangePermutation_laws
  obtain ⟨-, -, hundo⟩ := horders ⟨[6, 3, 1]⟩ [1, 2, 0] horder
  obtain ⟨⟨g, hg, hback⟩, -⟩ := hundo ⟨by decide, by decide⟩
  obtain ⟨haccepts, hkeeps⟩ := htables [1, 2, 0, 3]
  obtain ⟨f, hf⟩ := haccepts.mpr ⟨htable, 2, by decide, rfl⟩
  have hentries := hkeeps f hf
  have hsize : 0 < f.size := by
    rw [ReversibleFunction.size, ← Array.length_toList, hentries]
    decide
  refine ⟨horder, ⟨g, hg, ?_, hback⟩, f, hf, hentries, ((hinverses f).1 0 hsize).1⟩
  cases hg
  rfl

end CircuitSynthesis
