import CircuitSynthesis.Circuit.Graph
import Mathlib.Data.Finset.Card
import Mathlib.Data.Finset.Range
import Mathlib.Logic.Relation

/-!
# The acyclicity check finds exactly the cycles

A graph without cycles has ranks that rise along its edges: the number of
nodes that lead to a node. After `k` rounds the levels rise along all edges
into nodes of rank at most `k`, and from then on these nodes keep their
levels. Ranks stay below the number of nodes, so the check needs no more
rounds than it makes (`isAcyclic_iff`).
-/

namespace CircuitSynthesis.Graph

/-- An edge leads from one node to the other. -/
def Leads (edges : List Edge) (a b : Nat) : Prop := ∃ e ∈ edges, e.source = a ∧ e.target = b

/-- No way along the edges comes back to where it started. -/
def Acyclic (edges : List Edge) : Prop := ∀ v, ¬Relation.TransGen (Leads edges) v v

/-- The numbers rise along every edge. -/
def IsRank (edges : List Edge) (rank : Nat → Nat) : Prop :=
  ∀ e ∈ edges, rank e.source < rank e.target

variable {edges : List Edge} {rank : Nat → Nat} {levels : Array Nat} {e : Edge}

theorem IsRank.lt_of_transGen (h : IsRank edges rank) {a b : Nat}
    (hab : Relation.TransGen (Leads edges) a b) : rank a < rank b := by
  induction hab with
  | single hstep =>
    obtain ⟨e, he, rfl, rfl⟩ := hstep
    exact h e he
  | tail _ hstep ih =>
    obtain ⟨e, he, rfl, rfl⟩ := hstep
    exact ih.trans (h e he)

theorem IsRank.acyclic (h : IsRank edges rank) : Acyclic edges :=
  fun _ hv => Nat.lt_irrefl _ (h.lt_of_transGen hv)

theorem rising_iff : rising edges levels = true ↔ IsRank edges fun v => levels.getD v 0 := by
  simp [rising, IsRank]

/-! ## Ranks of a graph without cycles -/

section Ancestors

open Classical in
/-- The nodes below `size` from which there is a way to `v`. -/
noncomputable def ancestors (size : Nat) (edges : List Edge) (v : Nat) : Finset Nat :=
  (Finset.range size).filter fun u => Relation.TransGen (Leads edges) u v

theorem mem_ancestors {size u v : Nat} :
    u ∈ ancestors size edges v ↔ u < size ∧ Relation.TransGen (Leads edges) u v := by
  simp [ancestors]

theorem isRank_card_ancestors {size : Nat} (hsource : ∀ e ∈ edges, e.source < size)
    (h : Acyclic edges) : IsRank edges fun v => (ancestors size edges v).card := by
  intro e he
  apply Finset.card_lt_card
  have hstep : Leads edges e.source e.target := ⟨e, he, rfl, rfl⟩
  rw [Finset.ssubset_iff_of_subset fun u hu => ?_]
  · exact ⟨e.source, mem_ancestors.mpr ⟨hsource e he, .single hstep⟩,
      fun hmem => h _ (mem_ancestors.mp hmem).2⟩
  · obtain ⟨hlt, hway⟩ := mem_ancestors.mp hu
    exact mem_ancestors.mpr ⟨hlt, hway.tail hstep⟩

theorem card_ancestors_lt {size v : Nat} (hv : v < size) (h : Acyclic edges) :
    (ancestors size edges v).card < size := by
  have hproper : ancestors size edges v ⊂ Finset.range size := by
    rw [Finset.ssubset_iff_of_subset fun u hu => Finset.mem_range.mpr (mem_ancestors.mp hu).1]
    exact ⟨v, Finset.mem_range.mpr hv, fun hmem => h v (mem_ancestors.mp hmem).2⟩
  simpa using Finset.card_lt_card hproper

end Ancestors

/-! ## One raise -/

@[simp] theorem size_raise (e : Edge) (levels : Array Nat) :
    (raise e levels).size = levels.size := by
  simp [raise]

theorem getD_raise (htarget : e.target < levels.size) (v : Nat) :
    (raise e levels).getD v 0 =
      if v = e.target then max (levels.getD e.target 0) (levels.getD e.source 0 + 1)
      else levels.getD v 0 := by
  unfold raise
  rw [Array.getD_eq_getD_getElem?, Array.getElem?_setIfInBounds]
  by_cases hv : e.target = v
  · subst hv
    simp [htarget]
  · rw [if_neg hv, if_neg (Ne.symm hv), Array.getD_eq_getD_getElem?]

theorem le_getD_raise (htarget : e.target < levels.size) (v : Nat) :
    levels.getD v 0 ≤ (raise e levels).getD v 0 := by
  rw [getD_raise htarget]
  by_cases hv : v = e.target
  · rw [if_pos hv, hv]
    exact Nat.le_max_left _ _
  · rw [if_neg hv]

theorem lt_getD_raise_target (htarget : e.target < levels.size) :
    levels.getD e.source 0 < (raise e levels).getD e.target 0 := by
  rw [getD_raise htarget, if_pos rfl]
  exact Nat.lt_of_lt_of_le (Nat.lt_succ_self _) (Nat.le_max_right _ _)

/-- A raise only changes the level of a target that is not above its source. -/
theorem getD_raise_of_settled (htarget : e.target < levels.size) {v : Nat}
    (h : v = e.target → levels.getD e.source 0 < levels.getD e.target 0) :
    (raise e levels).getD v 0 = levels.getD v 0 := by
  rw [getD_raise htarget]
  by_cases hv : v = e.target
  · rw [if_pos hv, hv, Nat.max_eq_left (h hv)]
  · rw [if_neg hv]

/-! ## Rounds -/

/-- The levels rise along the edges into nodes of rank at most `k`. -/
def Settled (rank : Nat → Nat) (k : Nat) (edges : List Edge) (levels : Array Nat) : Prop :=
  ∀ e ∈ edges, rank e.target ≤ k → levels.getD e.source 0 < levels.getD e.target 0

/-- A raise leaves settled edges settled, and settles its own edge one rank
further up. -/
theorem settled_raise {k : Nat} {done : List Edge} (hrank : IsRank edges rank)
    (htarget : e.target < levels.size) (he : e ∈ edges) (hdone : ∀ e' ∈ done, e' ∈ edges)
    (hsettled : Settled rank k edges levels) (hnext : Settled rank (k + 1) done levels) :
    Settled rank k edges (raise e levels) ∧
      Settled rank (k + 1) (e :: done) (raise e levels) := by
  -- A source of rank at most `k` is not raised: if it is the target of `e`, that edge is settled.
  have hsource : ∀ v, rank v ≤ k → (raise e levels).getD v 0 = levels.getD v 0 := fun v hv =>
    getD_raise_of_settled htarget fun hve => hsettled e he (hve ▸ hv)
  have hkeep : ∀ e' ∈ edges, rank e'.target ≤ k + 1 →
      levels.getD e'.source 0 < levels.getD e'.target 0 →
      (raise e levels).getD e'.source 0 < (raise e levels).getD e'.target 0 := by
    intro e' he' hle hlt
    have hlower := hrank e' he'
    rw [hsource _ (by omega)]
    exact Nat.lt_of_lt_of_le hlt (le_getD_raise htarget _)
  refine ⟨fun e' he' hle => hkeep e' he' (by omega) (hsettled e' he' hle), ?_⟩
  intro e' he' hle
  rcases List.mem_cons.mp he' with rfl | he'
  · have hlower := hrank e' he
    rw [hsource _ (by omega)]
    exact lt_getD_raise_target htarget
  · exact hkeep e' (hdone e' he') hle (hnext e' he' hle)

theorem size_foldr_raise (done : List Edge) (levels : Array Nat) :
    (done.foldr raise levels).size = levels.size := by
  induction done with
  | nil => rfl
  | cons e done ih => rw [List.foldr_cons, size_raise, ih]

/-- A round settles the edges one rank further up. -/
theorem settled_raiseAll {k : Nat} (hrank : IsRank edges rank)
    (htarget : ∀ e ∈ edges, e.target < levels.size) (hsettled : Settled rank k edges levels) :
    Settled rank (k + 1) edges (raiseAll edges levels) := by
  have hround : ∀ done : List Edge, (∀ e ∈ done, e ∈ edges) →
      Settled rank k edges (done.foldr raise levels) ∧
        Settled rank (k + 1) done (done.foldr raise levels) := by
    intro done hdone
    induction done with
    | nil => exact ⟨hsettled, by simp [Settled]⟩
    | cons e done ih =>
      obtain ⟨he, hrest⟩ := List.forall_mem_cons.mp hdone
      obtain ⟨hkept, hnext⟩ := ih hrest
      have hbound : e.target < (done.foldr raise levels).size := by
        rw [size_foldr_raise]
        exact htarget e he
      exact settled_raise hrank hbound he hrest hkept hnext
  exact (hround edges fun _ he => he).2

/-- Enough rounds settle all edges. -/
theorem rising_settle {k rounds : Nat} (hrank : IsRank edges rank)
    (htarget : ∀ e ∈ edges, e.target < levels.size)
    (hbound : ∀ e ∈ edges, rank e.target ≤ k + rounds) (hsettled : Settled rank k edges levels) :
    rising edges (settle edges rounds levels) = true := by
  induction rounds generalizing k levels with
  | zero => exact rising_iff.mpr fun e he => hsettled e he (hbound e he)
  | succ rounds ih =>
    rw [settle]
    by_cases hrising : rising edges levels = true
    · rw [if_pos hrising]
      exact hrising
    · rw [if_neg hrising]
      refine ih ?_ ?_ (settled_raiseAll hrank htarget hsettled)
      · intro e he
        rw [raiseAll, size_foldr_raise]
        exact htarget e he
      · intro e he
        have := hbound e he
        omega

/-- **The check is exact.** A graph on the nodes below `size` passes it exactly
when it has no cycle. -/
theorem isAcyclic_iff {size : Nat} (h : ∀ e ∈ edges, e.source < size ∧ e.target < size) :
    isAcyclic size edges = true ↔ Acyclic edges := by
  constructor
  · exact fun hrising => (rising_iff.mp hrising).acyclic
  · intro hacyclic
    have hrank := isRank_card_ancestors (fun e he => (h e he).1) hacyclic
    refine rising_settle (k := 0) hrank (fun e he => by simpa using (h e he).2) ?_ ?_
    · intro e he
      have := card_ancestors_lt (h e he).2 hacyclic
      omega
    · -- No target has rank zero, since its source ranks below it.
      intro e he hzero
      have := hrank e he
      omega

end CircuitSynthesis.Graph
