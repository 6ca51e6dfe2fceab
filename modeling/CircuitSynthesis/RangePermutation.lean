/-!
# Permutations of an initial segment

A list that names every number below `n` exactly once is checked by one scan
with a flag per number. The scan reports the first entry that stands in the
way, and it finds none exactly when the entries are distinct and in range.
-/

namespace CircuitSynthesis

/-- Why an entry cannot belong to a permutation of an initial segment. -/
inductive RangeFault where
  /-- The value occurred before. -/
  | repeated (value : Nat)
  /-- The value is not below the bound. -/
  | outOfRange (value : Nat)
  deriving DecidableEq, Repr

/-- Each number below `n` occurs exactly once in `values`, and nothing else does. -/
structure IsRangePermutation (n : Nat) (values : List Nat) : Prop where
  length_eq : values.length = n
  nodup : values.Nodup
  lt : ∀ v ∈ values, v < n

/-- Distinct numbers below `n` are at most `n` many. -/
theorem length_le_of_nodup_lt {n : Nat} {values : List Nat} (hn : values.Nodup)
    (hlt : ∀ v ∈ values, v < n) : values.length ≤ n := by
  induction n generalizing values with
  | zero =>
    cases values with
    | nil => simp
    | cons v rest => exact absurd (hlt v List.mem_cons_self) (Nat.not_lt_zero v)
  | succ n ih =>
    have hrest : (values.erase n).length ≤ n := by
      refine ih (hn.erase n) fun v hv => ?_
      have := (hn.mem_erase_iff).1 hv
      have := hlt v this.2
      omega
    have := List.length_erase (a := n) (l := values)
    split at this <;> omega

/-- A permutation of an initial segment leaves no number out. -/
theorem IsRangePermutation.mem {n : Nat} {values : List Nat} (h : IsRangePermutation n values)
    {v : Nat} (hv : v < n) : v ∈ values := by
  apply Classical.byContradiction
  intro hnot
  have hlen : (v :: values).length ≤ n :=
    length_le_of_nodup_lt (List.nodup_cons.2 ⟨hnot, h.nodup⟩) fun w hw => by
      rcases List.mem_cons.1 hw with rfl | hw
      · exact hv
      · exact h.lt w hw
  rw [List.length_cons, h.length_eq] at hlen
  omega

theorem perm_range_of_isRangePermutation {n : Nat} {values : List Nat}
    (h : IsRangePermutation n values) : values.Perm (List.range n) := by
  refine (List.perm_ext_iff_of_nodup h.nodup List.nodup_range).mpr fun v => ?_
  rw [List.mem_range]
  exact ⟨h.lt v, h.mem⟩

namespace RangePermutation

/-- The first fault of the list, given which values were already seen. -/
def scan (seen : Array Bool) : List Nat → Option RangeFault
  | [] => none
  | v :: rest =>
    match seen[v]? with
    | none => some (.outOfRange v)
    | some true => some (.repeated v)
    | some false => scan (seen.setIfInBounds v true) rest

/-- The first entry that is not below `n` or occurred before. -/
def firstFault (n : Nat) (values : List Nat) : Option RangeFault :=
  scan (Array.replicate n false) values

theorem scan_eq_none_iff (seen : Array Bool) (values : List Nat) :
    scan seen values = none ↔
      values.Nodup ∧ ∀ v ∈ values, seen[v]? = some false := by
  induction values generalizing seen with
  | nil => simp [scan]
  | cons v rest ih =>
    rw [scan]
    split
    · next h => simp [h]
    · next h => simp [h]
    · next h =>
      rw [ih]
      have hv : v < seen.size := by
        rcases Nat.lt_or_ge v seen.size with hlt | hge
        · exact hlt
        · simp [Array.getElem?_eq_none hge] at h
      constructor
      · rintro ⟨hn, hs⟩
        have hne : ∀ w ∈ rest, w ≠ v := by
          rintro w hw rfl
          simpa [hv] using hs w hw
        refine ⟨List.nodup_cons.2 ⟨fun hm => hne v hm rfl, hn⟩, ?_⟩
        intro w hw
        rcases List.mem_cons.1 hw with rfl | hw
        · exact h
        · have := hs w hw
          rwa [Array.getElem?_setIfInBounds_ne (hne w hw).symm] at this
      · rintro ⟨hn, hs⟩
        obtain ⟨hnotin, hn⟩ := List.nodup_cons.1 hn
        refine ⟨hn, fun w hw => ?_⟩
        have hne : v ≠ w := fun he => hnotin (he ▸ hw)
        rw [Array.getElem?_setIfInBounds_ne hne]
        exact hs w (List.mem_cons_of_mem _ hw)

/-- The scan finds no fault exactly in lists of distinct numbers below `n`. -/
theorem firstFault_eq_none_iff {n : Nat} {values : List Nat} :
    firstFault n values = none ↔ values.Nodup ∧ ∀ v ∈ values, v < n := by
  rw [firstFault, scan_eq_none_iff]
  simp [Array.getElem?_replicate]

theorem isRangePermutation_iff {n : Nat} {values : List Nat} :
    IsRangePermutation n values ↔ values.length = n ∧ firstFault n values = none := by
  rw [firstFault_eq_none_iff]
  exact ⟨fun h => ⟨h.length_eq, h.nodup, h.lt⟩, fun ⟨hl, hn, hlt⟩ => ⟨hl, hn, hlt⟩⟩

end RangePermutation

end CircuitSynthesis
