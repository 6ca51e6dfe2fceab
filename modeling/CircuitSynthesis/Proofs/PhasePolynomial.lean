import CircuitSynthesis.PhasePolynomial
import Mathlib.Algebra.BigOperators.Group.List.Basic
import Mathlib.Algebra.Group.Fin.Basic
import Mathlib.Data.List.Nodup
import Mathlib.Data.ZMod.Defs

/-!
# Terms and phases

A mask has at most one term, so taking the term of a mask out of a polynomial
splits its terms. Sums of exact angles do not depend on the order of the
summands, and angles of zero add nothing to them; hence the phase of a basis
state only depends on which nonzero terms there are.
-/

namespace CircuitSynthesis

/-! ## Sums of exact angles -/

namespace Angle

theorem map_turn_eighths {l : List Angle} (h : ∀ a ∈ l, a.isExact = true) :
    (l.map eighths).map turn = l := by
  rw [List.map_map]
  refine (List.map_congr_left fun a ha => ?_).trans (List.map_id l)
  obtain ⟨k, rfl⟩ := isExact_iff.mp (h a ha)
  rfl

theorem foldl_map_turn (ks : List (Fin 8)) (k : Fin 8) :
    (ks.map turn).foldl (· + ·) (turn k) = turn (k + ks.sum) := by
  induction ks generalizing k with
  | nil => rw [List.map_nil, List.foldl_nil, List.sum_nil, add_zero]
  | cons j rest ih =>
    rw [List.map_cons, List.foldl_cons, turn_add_turn, ih, List.sum_cons, add_assoc]

/-- A sum of exact angles is a sum of eighth turns. -/
theorem sum_eq_turn {l : List Angle} (h : ∀ a ∈ l, a.isExact = true) :
    sum l = turn (l.map eighths).sum := by
  have hfold := foldl_map_turn (l.map eighths) 0
  rwa [map_turn_eighths h, zero_add] at hfold

theorem sum_perm {l l' : List Angle} (hperm : l.Perm l') (h : ∀ a ∈ l, a.isExact = true) :
    sum l = sum l' := by
  have h' : ∀ a ∈ l', a.isExact = true := fun a ha => h a (hperm.mem_iff.mpr ha)
  rw [sum_eq_turn h, sum_eq_turn h', (hperm.map eighths).sum_eq]

theorem sum_filter_nonzero {l : List Angle} (h : ∀ a ∈ l, a.isExact = true) :
    sum (l.filter fun a => !a.isZero) = sum l := by
  have hfilter : ∀ a ∈ l.filter fun a => !a.isZero, a.isExact = true := fun a ha =>
    h a (List.mem_filter.mp ha).1
  rw [sum_eq_turn h, sum_eq_turn hfilter]
  congr 1
  induction l with
  | nil => rfl
  | cons a rest ih =>
    obtain ⟨k, rfl⟩ := isExact_iff.mp (h a List.mem_cons_self)
    have hrest := ih (fun a ha => h a (List.mem_cons_of_mem _ ha)) fun a ha =>
      h a (List.mem_cons_of_mem _ (List.mem_filter.mp ha).1)
    rw [List.filter_cons, List.map_cons, List.sum_cons, ← hrest]
    by_cases hk : k = 0
    · rw [hk]
      exact (zero_add _).symm
    · have hkeep : (!(turn k).isZero) = true := by simpa [isZero] using hk
      rw [if_pos hkeep, List.map_cons, List.sum_cons]

end Angle

/-! ## Terms -/

namespace PhasePolynomial

variable {p : PhasePolynomial} {mask : Nat} {angle : Angle}

theorem nodup_masks (p : PhasePolynomial) : p.masks.Nodup := by
  unfold masks
  rw [List.Nodup, List.pairwise_map]
  exact p.ascending.imp Nat.ne_of_lt

theorem nodup_terms (p : PhasePolynomial) : p.terms.Nodup := p.nodup_masks.of_map Prod.fst

theorem get?_eq_some_iff : p.get? mask = some angle ↔ (mask, angle) ∈ p.terms := by
  unfold get?
  rw [Option.map_eq_some_iff]
  constructor
  · rintro ⟨⟨m, a⟩, hfind, rfl⟩
    have hm : m = mask := by simpa using List.find?_some hfind
    rw [← hm]
    exact List.mem_of_find?_eq_some hfind
  · intro hmem
    cases hfind : p.terms.find? (·.1 == mask) with
    | none => exact absurd (List.find?_eq_none.mp hfind _ hmem) (by simp)
    | some t =>
      have hfst : t.1 = mask := by simpa using List.find?_some hfind
      have ht : t = (mask, angle) :=
        List.inj_on_of_nodup_map p.nodup_masks (List.mem_of_find?_eq_some hfind) hmem hfst
      exact ⟨t, rfl, by rw [ht]⟩

theorem get?_eq_none_iff : p.get? mask = none ↔ mask ∉ p.masks := by
  unfold get? masks
  rw [Option.map_eq_none_iff, List.find?_eq_none]
  constructor
  · intro hnone hmem
    obtain ⟨t, ht, rfl⟩ := List.mem_map.mp hmem
    exact hnone t ht (beq_self_eq_true t.1)
  · intro hnot t ht he
    rw [beq_iff_eq] at he
    exact hnot (he ▸ List.mem_map_of_mem ht)

theorem mem_masks_erase {mask' : Nat} :
    mask' ∈ (p.erase mask).masks ↔ mask' ∈ p.masks ∧ mask' ≠ mask := by
  unfold erase filter masks
  simp only [List.mem_map, List.mem_filter, bne_iff_ne]
  constructor
  · rintro ⟨t, ⟨ht, hne⟩, rfl⟩
    exact ⟨⟨t, ht, rfl⟩, hne⟩
  · rintro ⟨⟨t, ht, rfl⟩, hne⟩
    exact ⟨t, ⟨ht, hne⟩, rfl⟩

/-- The term of a mask and the terms of all others. -/
theorem perm_cons_erase (h : p.get? mask = some angle) :
    ((mask, angle) :: (p.erase mask).terms).Perm p.terms := by
  have hmem : (mask, angle) ∈ p.terms := get?_eq_some_iff.mp h
  have hnodup : ((mask, angle) :: (p.erase mask).terms).Nodup := by
    refine List.nodup_cons.mpr ⟨fun hin => ?_, (p.erase mask).nodup_terms⟩
    have hmask : mask ∈ (p.erase mask).masks := List.mem_map_of_mem hin
    exact (mem_masks_erase.mp hmask).2 rfl
  refine (List.perm_ext_iff_of_nodup hnodup p.nodup_terms).mpr fun t => ?_
  rw [List.mem_cons]
  constructor
  · rintro (rfl | ht)
    · exact hmem
    · exact (List.mem_filter.mp ht).1
  · intro ht
    by_cases hfst : t.1 = mask
    · exact .inl (List.inj_on_of_nodup_map p.nodup_masks ht hmem hfst)
    · exact .inr (List.mem_filter.mpr ⟨ht, by simpa using hfst⟩)

theorem validate_eq_ok_iff {width : Nat} :
    p.validate width = .ok () ↔ ∀ m ∈ p.masks, m ≠ 0 ∧ m < 2 ^ width := by
  have hfind : (p.masks.find? fun m => m == 0 || !Bits.fits width m) = none ↔
      ∀ m ∈ p.masks, m ≠ 0 ∧ m < 2 ^ width := by
    simp [List.find?_eq_none, Bits.fits_iff]
  unfold validate
  rw [← hfind]
  cases p.masks.find? fun m => m == 0 || !Bits.fits width m <;> simp

theorem mem_masks_of_nonzero (h : mask ∈ p.nonzero.masks) : mask ∈ p.masks := by
  obtain ⟨t, ht, rfl⟩ := List.mem_map.mp h
  exact List.mem_map_of_mem (List.mem_filter.mp ht).1

/-! ## Phases -/

/-- The angles that a basis state picks up from terms, in their order. -/
def picked (x : Nat) (terms : List (Nat × Angle)) : List Angle :=
  (terms.filter fun t => Bits.oddOverlap t.1 x).map Prod.snd

theorem mem_of_mem_picked {x : Nat} {terms : List (Nat × Angle)} {a : Angle}
    (h : a ∈ picked x terms) : ∃ t ∈ terms, t.2 = a := by
  obtain ⟨t, ht, rfl⟩ := List.mem_map.mp h
  exact ⟨t, (List.mem_filter.mp ht).1, rfl⟩

/-- Any order of the nonzero terms gives the phase, if the angles are exact. -/
theorem sum_picked_eq_phaseAt {terms : List (Nat × Angle)} (hperm : terms.Perm p.nonzero.terms)
    (hexact : ∀ t ∈ p.terms, t.2.isExact = true) (x : Nat) :
    Angle.sum (picked x terms) = p.phaseAt x := by
  have hpicked : ∀ a ∈ picked x p.terms, a.isExact = true := by
    intro a ha
    obtain ⟨t, ht, rfl⟩ := mem_of_mem_picked ha
    exact hexact t ht
  have hfilter : picked x p.nonzero.terms =
      (picked x p.terms).filter fun a => !a.isZero := by
    show ((p.terms.filter _).filter _).map Prod.snd = _
    rw [picked, List.filter_map, List.filter_filter, List.filter_filter]
    congr 1
    apply List.filter_congr
    intro t _
    exact Bool.and_comm _ _
  have hperm' : (picked x terms).Perm (picked x p.nonzero.terms) :=
    (hperm.filter _).map Prod.snd
  have hsub : ∀ a ∈ picked x terms, a.isExact = true := by
    intro a ha
    have ha' := hperm'.mem_iff.mp ha
    rw [hfilter] at ha'
    exact hpicked a (List.mem_filter.mp ha').1
  rw [Angle.sum_perm hperm' hsub, hfilter, Angle.sum_filter_nonzero hpicked]
  rfl

end PhasePolynomial

end CircuitSynthesis
