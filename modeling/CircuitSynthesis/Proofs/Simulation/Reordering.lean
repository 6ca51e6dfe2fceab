import CircuitSynthesis.Proofs.Edit
import CircuitSynthesis.Proofs.Simulation.Linear
import Mathlib.Data.List.Sort

/-!
# Reordering gates

A list of gates may be reordered as long as gates on a common wire keep their
order. On every wire the two lists then have the same gates one after another
(`Reorders.filter_touches`), and the first gate of one list can be brought to
the front of the other past gates on other wires. So any function of the list
whose steps commute for gates on different wires has the same value on both
(`Reorders.foldl_eq`): the output of every pattern, its phase, the linear map
and the depth.
-/

namespace CircuitSynthesis

/-! ## Lists that agree on every wire -/

/-- The second list has the gates of the first in an order in which any two
gates on a common wire follow one another as before. -/
def Reorders (first second : List Gate) : Prop :=
  ∃ move : Fin first.length ≃ Fin second.length,
    (∀ i, second.get (move i) = first.get i) ∧
      ∀ i j, i < j → (first.get i).sharesWire (first.get j) = true → move i < move j

theorem filter_eq_map_get {α : Type} (p : α → Bool) (l : List α) :
    l.filter p = ((List.finRange l.length).filter fun i => p (l.get i)).map l.get := by
  conv_lhs => rw [← List.map_get_finRange l, List.filter_map]
  rfl

/-- On every wire both lists have the same gates in the same order. -/
theorem Reorders.filter_touches {first second : List Gate} (h : Reorders first second) (w : Wire) :
    first.filter (·.touches w) = second.filter (·.touches w) := by
  obtain ⟨move, hmove, horder⟩ := h
  rw [filter_eq_map_get, filter_eq_map_get _ second]
  -- The positions of the gates on the wire, moved, are those in the second list.
  have hpositions :
      ((List.finRange first.length).filter fun i => (first.get i).touches w).map move =
        (List.finRange second.length).filter fun i => (second.get i).touches w := by
    refine List.Pairwise.eq_of_mem_iff (r := (· < ·)) ?_ ?_ fun j => ?_
    · rw [List.pairwise_map]
      refine ((List.sortedLT_finRange _).pairwise.filter _).imp_of_mem fun {i j} hi hj hlt => ?_
      exact horder i j hlt (Gate.sharesWire_of_touches (List.mem_filter.mp hi).2
        (List.mem_filter.mp hj).2)
    · exact (List.sortedLT_finRange _).pairwise.filter _
    · simp only [List.mem_map, List.mem_filter, List.mem_finRange, true_and]
      constructor
      · rintro ⟨i, hi, rfl⟩
        rw [hmove]
        exact hi
      · intro hj
        refine ⟨move.symm j, ?_, move.apply_symm_apply j⟩
        rw [← hmove, move.apply_symm_apply]
        exact hj
  rw [← hpositions, List.map_map]
  refine List.map_congr_left fun i _ => ?_
  exact (hmove i).symm

theorem Reorders.mem_iff {first second : List Gate} (h : Reorders first second) (g : Gate) :
    g ∈ first ↔ g ∈ second := by
  obtain ⟨move, hmove, -⟩ := h
  rw [List.mem_iff_get, List.mem_iff_get]
  constructor
  · rintro ⟨i, rfl⟩
    exact ⟨move i, hmove i⟩
  · rintro ⟨j, rfl⟩
    exact ⟨move.symm j, by rw [← hmove, move.apply_symm_apply]⟩

/-! ## Folds that do not see the order -/

section Fold

variable {first rest : List Gate} {h : Gate}

/-- If the second list starts with `h`, then in the first one only gates on
other wires come before it. -/
theorem exists_front (hne : h.operands ≠ [])
    (hwires : ∀ w, first.filter (·.touches w) = (h :: rest).filter (·.touches w)) :
    ∃ front back, first = front ++ h :: back ∧ (∀ g ∈ front, g.sharesWire h = false) ∧
      ∀ w, (front ++ back).filter (·.touches w) = rest.filter (·.touches w) := by
  obtain ⟨w₀, hw₀⟩ := List.exists_mem_of_ne_nil _ hne
  have htouches := Gate.touches_of_mem hw₀
  obtain ⟨front, back, rfl, hfront, -, -⟩ := List.filter_eq_cons_iff.mp
    ((hwires w₀).trans (by rw [List.filter_cons, if_pos htouches]))
  -- The first gate before `h` on a wire of `h` would be `h` itself, which is on `w₀`.
  have hclear (w : Wire) (hw : h.touches w = true) : front.filter (·.touches w) = [] := by
    have hhead := hwires w
    rw [List.filter_append, List.filter_cons, if_pos hw, List.filter_cons, if_pos hw] at hhead
    cases hbefore : front.filter (·.touches w) with
    | nil => rfl
    | cons g before =>
      rw [hbefore] at hhead
      obtain ⟨rfl, -⟩ := List.cons.inj hhead
      have hmem : g ∈ front.filter (·.touches w) := hbefore ▸ List.mem_cons_self
      exact absurd htouches (hfront g (List.mem_filter.mp hmem).1)
  refine ⟨front, back, rfl, ?_, ?_⟩
  · intro g hg
    rw [Gate.sharesWire, List.any_eq_false]
    intro w hw htw
    have hmem : g ∈ front.filter (·.touches w) :=
      List.mem_filter.mpr ⟨hg, Gate.touches_of_mem hw⟩
    rw [hclear w htw] at hmem
    cases hmem
  · intro w
    have hw := hwires w
    cases htw : h.touches w with
    | true => simpa [htw, hclear w htw] using hw
    | false => simpa [htw] using hw

/-- A fold whose steps commute for gates on different wires only depends on
the gates of each wire. -/
theorem foldl_eq_of_filter_touches {σ : Type} {step : σ → Gate → σ} {first second : List Gate}
    (hwires : ∀ w, first.filter (·.touches w) = second.filter (·.touches w))
    (hfirst : ∀ g ∈ first, g.operands ≠ []) (hsecond : ∀ g ∈ second, g.operands ≠ [])
    (hcomm : ∀ g ∈ first, ∀ h ∈ first, g.sharesWire h = false →
      ∀ s, step (step s g) h = step (step s h) g) (s : σ) :
    first.foldl step s = second.foldl step s := by
  induction second generalizing first s with
  | nil =>
    have hnil : first = [] := by
      refine List.eq_nil_iff_forall_not_mem.mpr fun g hg => ?_
      obtain ⟨w, hw⟩ := List.exists_mem_of_ne_nil _ (hfirst g hg)
      have hmem : g ∈ first.filter (·.touches w) :=
        List.mem_filter.mpr ⟨hg, Gate.touches_of_mem hw⟩
      rw [hwires w] at hmem
      cases hmem
    rw [hnil]
  | cons h rest ih =>
    obtain ⟨hh, hrest⟩ := List.forall_mem_cons.mp hsecond
    obtain ⟨front, back, rfl, hfront, hwires'⟩ := exists_front hh hwires
    have hkept : ∀ g ∈ front ++ back, g ∈ front ++ h :: back := by
      intro g hg
      rcases List.mem_append.mp hg with hg | hg
      · exact List.mem_append_left _ hg
      · exact List.mem_append_right _ (List.mem_cons_of_mem _ hg)
    have hmove : step (front.foldl step s) h = front.foldl step (step s h) :=
      step_foldl_of_comm (fun g hg => hcomm g (List.mem_append_left _ hg) h (by simp)
        (hfront g hg)) s
    calc (front ++ h :: back).foldl step s
        = (front ++ back).foldl step (step s h) := by
          rw [List.foldl_append, List.foldl_cons, hmove, ← List.foldl_append]
      _ = rest.foldl step (step s h) :=
          ih hwires' (fun g hg => hfirst g (hkept g hg)) hrest
            (fun g hg g' hg' => hcomm g (hkept g hg) g' (hkept g' hg')) _

end Fold

/-! ## Commuting steps -/

theorem Cnot.act_comm {k l : Cnot} (htargets : k.target ≠ l.target) (hkl : k.control ≠ l.target)
    (hlk : l.control ≠ k.target) (rows : List Nat) :
    act (act rows k) l = act (act rows l) k := by
  simp only [act, addRow, List.getD_eq_getElem?_getD]
  rw [List.getElem?_set_ne htargets, List.getElem?_set_ne hlk.symm,
    List.getElem?_set_ne htargets.symm, List.getElem?_set_ne hkl.symm, List.set_comm _ _ htargets]

theorem Cnot.run_comm {ks ls : List Cnot} (hcomm : ∀ k ∈ ks, ∀ l ∈ ls, ∀ rows,
      act (act rows k) l = act (act rows l) k) (rows : List Nat) :
    run (run rows ks) ls = run (run rows ls) ks := by
  induction ls generalizing rows with
  | nil => rfl
  | cons l ls ih =>
    have hmove : act (run rows ks) l = run (act rows l) ks :=
      step_foldl_of_comm (fun k hk => hcomm k hk l List.mem_cons_self) rows
    rw [run_cons, hmove, run_cons]
    exact ih (fun k hk l hl => hcomm k hk l (List.mem_cons_of_mem _ hl)) _

namespace Gate

variable {g h : Gate}

theorem mem_indices_of_mem_cnots {k : Cnot} (hk : k ∈ g.cnots) :
    k.control ∈ g.indices ∧ k.target ∈ g.indices := by
  unfold cnots at hk
  cases hks : g.cnots? with
  | none =>
    rw [hks] at hk
    cases hk
  | some ks =>
    rw [hks] at hk
    exact (linearForm_of_cnots? hks).mem_indices hk

/-- Gates without a common wire add rows independently. -/
theorem run_cnots_comm (hdisjoint : List.Disjoint g.indices h.indices) (rows : List Nat) :
    Cnot.run (Cnot.run rows g.cnots) h.cnots = Cnot.run (Cnot.run rows h.cnots) g.cnots := by
  refine Cnot.run_comm (fun k hk l hl => Cnot.act_comm ?_ ?_ ?_) rows
  all_goals
    obtain ⟨hkc, hkt⟩ := mem_indices_of_mem_cnots hk
    obtain ⟨hlc, hlt⟩ := mem_indices_of_mem_cnots hl
  · exact fun he => hdisjoint hkt (he ▸ hlt)
  · exact fun he => hdisjoint hkc (he ▸ hlt)
  · exact fun he => hdisjoint hkt (he ▸ hlc)

/-! ## Levels -/

/-- The level at which a gate ends. -/
def level (g : Gate) (levels : Array Nat) : Nat :=
  (g.operands.map fun w => levels.getD w.index 0).foldl max 0 + 1

/-- The levels after the wires of a gate were brought to one. -/
def bring (g : Gate) (value : Nat) (levels : Array Nat) : Array Nat :=
  g.operands.foldl (fun levels w => levels.setIfInBounds w.index value) levels

theorem depthStep_eq (g : Gate) (levels : Array Nat) (depth : Nat) :
    Circuit.depthStep (levels, depth) g =
      (g.bring (g.level levels) levels, max depth (g.level levels)) := rfl

theorem getElem?_bring (g : Gate) (value : Nat) (levels : Array Nat) (i : Nat) :
    (g.bring value levels)[i]? =
      if i ∈ g.indices then levels[i]?.map fun _ => value else levels[i]? := by
  unfold bring indices
  induction g.operands generalizing levels with
  | nil => simp
  | cons w ws ih =>
    rw [List.foldl_cons, ih, Array.getElem?_setIfInBounds]
    by_cases hw : w.index = i
    · by_cases hi : i < levels.size <;> simp [hw, hi]
    · simp [hw, Ne.symm hw]

theorem level_bring (hdisjoint : List.Disjoint g.indices h.indices) (value : Nat)
    (levels : Array Nat) : h.level (g.bring value levels) = h.level levels := by
  unfold level
  congr 2
  refine List.map_congr_left fun w hw => ?_
  have hnot : w.index ∉ g.indices := fun hg => hdisjoint hg (List.mem_map_of_mem hw)
  rw [Array.getD_eq_getD_getElem?, Array.getD_eq_getD_getElem?, getElem?_bring, if_neg hnot]

theorem bring_comm (hdisjoint : List.Disjoint g.indices h.indices) (m n : Nat)
    (levels : Array Nat) :
    h.bring n (g.bring m levels) = g.bring m (h.bring n levels) := by
  apply Array.ext_getElem?
  intro i
  rw [getElem?_bring, getElem?_bring, getElem?_bring, getElem?_bring]
  by_cases hg : i ∈ g.indices
  · have hh : i ∉ h.indices := fun hh => hdisjoint hg hh
    simp [hg, hh]
  · simp [hg]

/-- Gates without a common wire reach their levels independently. -/
theorem depthStep_comm (hdisjoint : List.Disjoint g.indices h.indices) (s : Array Nat × Nat) :
    Circuit.depthStep (Circuit.depthStep s g) h = Circuit.depthStep (Circuit.depthStep s h) g := by
  obtain ⟨levels, depth⟩ := s
  simp only [depthStep_eq]
  rw [level_bring hdisjoint, level_bring hdisjoint.symm, bring_comm hdisjoint, max_right_comm]

end Gate

/-! ## Reordered circuits -/

theorem toOption_eq_of_iff {ε α : Type} {r r' : Except ε α} (h : ∀ a, r = .ok a ↔ r' = .ok a) :
    r.toOption = r'.toOption := by
  cases r with
  | ok a => rw [(h a).mp rfl]
  | error e =>
    cases r' with
    | ok a => cases (h a).mpr rfl
    | error e' => rfl

namespace Reorders

variable {c : Circuit} {first second : List Gate}

theorem foldl_eq {σ : Type} {step : σ → Gate → σ} (h : Reorders first second)
    (hadmits : ∀ g ∈ first, c.Admits g)
    (hcomm : ∀ g h : Gate, List.Disjoint g.indices h.indices →
      ∀ s, step (step s g) h = step (step s h) g) (s : σ) :
    first.foldl step s = second.foldl step s :=
  foldl_eq_of_filter_touches h.filter_touches
    (fun g hg => Gate.operands_ne_nil (hadmits g hg).valid)
    (fun g hg => Gate.operands_ne_nil (hadmits g ((h.mem_iff g).mpr hg)).valid)
    (fun g hg g' hg' hshare => hcomm g g' ((hadmits g hg).disjoint_indices (hadmits g' hg') hshare))
    s

theorem forall_mem_append_iff {P : Gate → Prop} (h : Reorders first second) (gates : List Gate) :
    (∀ g ∈ gates ++ first, P g) ↔ ∀ g ∈ gates ++ second, P g := by
  simp only [List.mem_append, h.mem_iff]

theorem depth_eq (h : Reorders first second) (hadmits : ∀ g ∈ first, c.Admits g) :
    (first.foldl Circuit.place c).depth = (second.foldl Circuit.place c).depth := by
  simp only [Circuit.depth, Circuit.foldl_place_wireCount, Circuit.foldl_place_liveGates,
    List.foldl_append]
  rw [h.foldl_eq hadmits fun _ _ => Gate.depthStep_comm]

theorem simulate_toOption_eq (h : Reorders first second) (hadmits : ∀ g ∈ first, c.Admits g)
    (x : Nat) :
    ((first.foldl Circuit.place c).simulate x).toOption =
      ((second.foldl Circuit.place c).simulate x).toOption := by
  refine toOption_eq_of_iff fun y => ?_
  simp only [Circuit.simulate_eq_ok_iff 0, Circuit.foldl_place_wireCount,
    Circuit.foldl_place_liveGates, h.forall_mem_append_iff, List.foldl_append]
  rw [h.foldl_eq hadmits fun _ _ => Gate.advance_comm]

theorem phaseOf_toOption_eq (h : Reorders first second) (hadmits : ∀ g ∈ first, c.Admits g)
    (hvalid : ∀ g ∈ c.liveGates ++ first, g.validate = .ok ())
    (hexact : ∀ g ∈ c.liveGates ++ first, g.isExact = true) (x : Nat) :
    ((first.foldl Circuit.place c).phaseOf x).toOption =
      ((second.foldl Circuit.place c).phaseOf x).toOption := by
  refine toOption_eq_of_iff fun phase => ?_
  rw [Circuit.phaseOf_eq_ok_iff (by simpa using hvalid) (by simpa using hexact),
    Circuit.phaseOf_eq_ok_iff (by simpa using (h.forall_mem_append_iff _).mp hvalid)
      (by simpa using (h.forall_mem_append_iff _).mp hexact)]
  simp only [Circuit.foldl_place_wireCount, Circuit.foldl_place_liveGates,
    h.forall_mem_append_iff, List.foldl_append]
  rw [h.foldl_eq hadmits fun _ _ => Gate.advance_comm]

theorem linearPart_toOption_eq (h : Reorders first second) (hadmits : ∀ g ∈ first, c.Admits g)
    (hplaced : ∀ g ∈ c.liveGates ++ first, g.WellPlaced c.wireCount) :
    (first.foldl Circuit.place c).linearPart.toOption =
      (second.foldl Circuit.place c).linearPart.toOption := by
  refine toOption_eq_of_iff fun M => ?_
  simp only [Circuit.linearPart_eq_ok_iff, Circuit.foldl_place_wireCount,
    Circuit.foldl_place_liveGates]
  rw [Gate.foldlM_onParities_eq_ok_iff (by simpa using hplaced),
    Gate.foldlM_onParities_eq_ok_iff (by simpa using (h.forall_mem_append_iff _).mp hplaced)]
  simp only [h.forall_mem_append_iff, List.flatMap_append, Cnot.run_append]
  have hrun (gates : List Gate) (rows : List Nat) :
      Cnot.run rows (gates.flatMap Gate.cnots) =
        gates.foldl (fun rows g => Cnot.run rows g.cnots) rows := List.foldl_flatMap ..
  rw [hrun first, hrun second, h.foldl_eq hadmits fun _ _ => Gate.run_cnots_comm]

end Reorders

namespace Circuit

/-- **Reordering.** Gates that a reachable circuit admits can be appended in
any order in which gates on a common wire keep theirs. The depth is the same,
and so are the linear part, the output of every pattern and its phase, or
else both circuits have none. -/
theorem emitAll_reordered {c : Circuit} (hc : c.Reachable) {first second : List Gate}
    (hadmits : ∀ g ∈ first, c.Admits g) (hexact : ∀ g ∈ c.liveGates ++ first, g.isExact = true)
    (hreorders : Reorders first second) :
    ∃ d d', Edit.emitAll first c = .ok () d ∧ Edit.emitAll second c = .ok () d' ∧
      d.depth = d'.depth ∧ d.linearPart.toOption = d'.linearPart.toOption ∧
      ∀ x, (d.simulate x).toOption = (d'.simulate x).toOption ∧
        (d.phaseOf x).toOption = (d'.phaseOf x).toOption := by
  have hadmits' : ∀ g ∈ second, c.Admits g := fun g hg => hadmits g ((hreorders.mem_iff g).mpr hg)
  have hall : ∀ g ∈ c.liveGates ++ first, c.Admits g := fun g hg =>
    (List.mem_append.mp hg).elim hc.sound.admits_of_mem_liveGates (hadmits g)
  refine ⟨_, _, Edit.emitAll_of_admits hadmits, Edit.emitAll_of_admits hadmits',
    hreorders.depth_eq hadmits,
    hreorders.linearPart_toOption_eq hadmits fun g hg => (hall g hg).wellPlaced, fun x => ?_⟩
  exact ⟨hreorders.simulate_toOption_eq hadmits x,
    hreorders.phaseOf_toOption_eq hadmits (fun g hg => (hall g hg).valid) hexact x⟩

/-- A pair of wires with a CNOT and an exchange, beside a pair with a `y` gate,
a CNOT and a phase. -/
def pairByPair : List Gate := [.cx (.qubit 0) (.qubit 1), ⟨.pauli .y, [], [.qubit 2]⟩,
  .cx (.qubit 2) (.qubit 3), ⟨.swap, [], [.qubit 0, .qubit 1]⟩, ⟨.t, [], [.qubit 3]⟩]

/-- The same gates in another order. -/
def interleaved : List Gate := [⟨.pauli .y, [], [.qubit 2]⟩, .cx (.qubit 0) (.qubit 1),
  ⟨.swap, [], [.qubit 0, .qubit 1]⟩, .cx (.qubit 2) (.qubit 3), ⟨.t, [], [.qubit 3]⟩]

theorem emitAll_reordered_interleaved :
    (ofQubits 4).Reachable ∧ (∀ g ∈ pairByPair, (ofQubits 4).Admits g) ∧
      (∀ g ∈ (ofQubits 4).liveGates ++ pairByPair, g.isExact = true) ∧
      Reorders pairByPair interleaved ∧
      ∃ d d', Edit.emitAll pairByPair (ofQubits 4) = .ok () d ∧
        Edit.emitAll interleaved (ofQubits 4) = .ok () d' ∧ d.depth = d'.depth ∧
        (d.phaseOf 1).toOption = (d'.phaseOf 1).toOption := by
  have hc : (ofQubits 4).Reachable :=
    ⟨[.addWire .qubit, .addWire .qubit, .addWire .qubit, .addWire .qubit], rfl⟩
  have hadmits : ∀ g ∈ pairByPair, (ofQubits 4).Admits g := by
    simp only [pairByPair, List.forall_mem_cons, List.not_mem_nil, false_implies, implies_true,
      and_true]
    exact ⟨⟨rfl, by decide⟩, ⟨rfl, by decide⟩, ⟨rfl, by decide⟩, ⟨rfl, by decide⟩,
      ⟨rfl, by decide⟩⟩
  have hexact : ∀ g ∈ (ofQubits 4).liveGates ++ pairByPair, g.isExact = true := by decide
  have hreorders : Reorders pairByPair interleaved :=
    ⟨(Equiv.swap 0 1 * Equiv.swap 2 3 : Equiv.Perm (Fin 5)), by decide, by decide⟩
  obtain ⟨d, d', hd, hd', hdepth, -, houtcome⟩ := emitAll_reordered hc hadmits hexact hreorders
  exact ⟨hc, hadmits, hexact, hreorders, d, d', hd, hd', hdepth, (houtcome 1).2⟩

end Circuit

end CircuitSynthesis
