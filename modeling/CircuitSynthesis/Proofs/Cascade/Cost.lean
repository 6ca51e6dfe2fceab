import CircuitSynthesis.Proofs.Cascade.RoundTrip
import Mathlib.Order.Bounds.Basic

/-!
# What a cascade costs

A route takes one gate for each bit in which its ends differ. What it costs to
fix a row can therefore be told from the table, before any gate is found: the
image of the row is carried into place, or the row that holds it is brought
there, or some other row is brought there and its image carried the rest of the
way (`State.IsPrice`). A gate on the input side leaves the images as they are, so
the price that was compared is the one that is paid (`Reduces.emits_step`).

No row costs more than there are bits, and the last row costs nothing, since all
other values are taken. So a whole cascade on `n` bits has at most
`n * (2 ^ n - 1)` gates (`length_gates_reduce_le`).
-/

namespace CircuitSynthesis

theorem Toffoli.length_route (source goal : Nat) :
    (route source goal).length = Bits.weight (source ^^^ goal) := by
  rw [route, List.length_append, List.length_map, List.length_map, Bits.weight_xor, Nat.add_comm]

/-- On an accepted placement a gate has one target, which is none of its
controls, and all controls are positive. -/
theorem Placement.Fits.toGate_eq_mcx {c : Circuit} {p : Placement} {n : Nat} (h : p.Fits c n)
    {g : Toffoli} (hg : g.WellFormed n) :
    ∃ controls target, g.toGate p = .mcx controls [target] ∧
      ∀ w ∈ controls, w.polarity = .positive ∧ w.sameWire target = false := by
  have hlength := h.length_eq
  refine ⟨p.select g.controls, (p.wire g.target).positive, ?_, fun w hw => ?_⟩
  · rw [Toffoli.toGate, select_two_pow (by rw [hlength]; exact hg.target_lt)]
  · obtain ⟨i, hi, hbit, rfl⟩ := mem_select.mp hw
    refine ⟨rfl, h.sameWire_wire (by omega) hg.target_lt ?_⟩
    rintro rfl
    rw [hg.free] at hbit
    cases hbit

namespace Cascade

open Toffoli

variable {n x k : Nat} {original : Array Nat} {s s' : State} {direction : Direction}

/-! ## Prices -/

/-- The number of gates it takes to fix row `x` of a table: in one direction the
image is carried to `x`; in two, that or the row that holds `x` is brought to
`x`, whichever is cheaper; in many, the cheapest row from `x` on is brought to
`x` and its image carried to `x`. -/
def State.IsPrice (direction : Direction) (s : State) (x k : Nat) : Prop :=
  match direction with
  | .unidirectional => k = Bits.weight (x ^^^ s.image x)
  | .bidirectional =>
    k = min (Bits.weight (x ^^^ s.image x))
      (Bits.weight (x ^^^ (ReversibleFunction.inverseTable s.table).getD x 0))
  | .multidirectional =>
    IsLeast {price | ∃ z, x ≤ z ∧ z < s.table.size ∧
      price = Bits.weight (z ^^^ x) + Bits.weight (x ^^^ s.image z)} k

/-- It is always possible to carry the image. -/
theorem State.IsPrice.le_weight (h : s.IsPrice direction x k) (hx : x < s.table.size) :
    k ≤ Bits.weight (x ^^^ s.image x) := by
  cases direction with
  | unidirectional => exact Nat.le_of_eq h
  | bidirectional =>
    rw [show k = min _ _ from h]
    exact Nat.min_le_left _ _
  | multidirectional =>
    refine h.2 ⟨x, Nat.le_refl x, hx, ?_⟩
    rw [Nat.xor_self, Bits.weight_zero, Nat.zero_add]

/-- The search finds where the inverse table says that `x` is. -/
theorem Reduces.rowOf_eq (h : Reduces n original x s) (hx : x < 2 ^ n) :
    s.rowOf x = (ReversibleFunction.inverseTable s.table).getD x 0 := by
  obtain ⟨-, hlt, himage⟩ := h.rowOf hx
  have hsize := h.size_table
  have hget : s.table[s.rowOf x]? = some x := by
    rw [← hsize] at hlt
    refine Array.getElem?_eq_some_iff.mpr ⟨hlt, ?_⟩
    simpa [State.image, Array.getD, hlt] using himage
  have hperm : IsRangePermutation s.table.size s.table.toList := hsize ▸ h.isPermutation
  rw [Array.getD_eq_getD_getElem?, ReversibleFunction.getElem?_inverseTable hperm hget]
  rfl

/-! ## One row -/

/-- From `s` to `s'`, `k` gates were added behind those of the two sides. -/
def Emits (k : Nat) (s s' : State) : Prop :=
  ∃ front back, s'.inputSide = s.inputSide ++ front ∧ s'.outputSide = s.outputSide ++ back ∧
    front.length + back.length = k

theorem emits_carryImage (s : State) (x : Nat) :
    Emits (Bits.weight (x ^^^ s.image x)) s (s.carryImage x) := by
  refine ⟨[], route (s.image x) x, (List.append_nil _).symm, rfl, ?_⟩
  rw [List.length_nil, Nat.zero_add, length_route, Nat.xor_comm]

theorem emits_bringRow (s : State) (x z : Nat) :
    Emits (Bits.weight (z ^^^ x)) s (s.bringRow x z) :=
  ⟨route z x, [], rfl, (List.append_nil _).symm, length_route z x⟩

/-- A row in its place costs nothing. -/
theorem emits_of_fixed (h : s.image x = x) : Emits (Bits.weight (x ^^^ s.image x)) s s := by
  refine ⟨[], [], (List.append_nil _).symm, (List.append_nil _).symm, ?_⟩
  rw [h, Nat.xor_self]
  rfl

theorem Emits.trans {l : Nat} {s'' : State} (h : Emits k s s') (h' : Emits l s' s'') :
    Emits (k + l) s s'' := by
  obtain ⟨front, back, hinput, houtput, hlength⟩ := h
  obtain ⟨front', back', hinput', houtput', hlength'⟩ := h'
  refine ⟨front ++ front', back ++ back', ?_, ?_, ?_⟩
  · rw [hinput', hinput, List.append_assoc]
  · rw [houtput', houtput, List.append_assoc]
  · rw [List.length_append, List.length_append]
    omega

theorem Emits.length_gates (h : Emits k s s') : s'.gates.length = s.gates.length + k := by
  obtain ⟨front, back, hinput, houtput, hlength⟩ := h
  simp only [State.gates, hinput, houtput, List.length_append, List.length_reverse]
  omega

/-- Bringing a row does not change its image, so that what is left to carry is
known beforehand. -/
theorem emits_move {z : Nat} (s : State) (hsize : s.table.size = 2 ^ n) (hx : x < 2 ^ n)
    (hz : z < 2 ^ n) : Emits (s.cost x z) s ((s.bringRow x z).carryImage x) := by
  have hcarry := emits_carryImage (s.bringRow x z) x
  rw [image_bringRow_self s hsize hx hz] at hcarry
  exact (emits_bringRow s x z).trans hcarry

/-- **The price is paid.** Once the rows below `x` are fixed, fixing row `x`
takes exactly as many gates as its price in the current table. -/
theorem Reduces.emits_step (h : Reduces n original x s) (hx : x < 2 ^ n) (direction : Direction) :
    ∃ k, s.IsPrice direction x k ∧ Emits k s (s.step direction x) := by
  unfold State.step
  cases direction with
  | unidirectional =>
    refine ⟨_, rfl, ?_⟩
    by_cases hfixed : s.image x = x
    · simp only [if_pos hfixed]
      exact emits_of_fixed hfixed
    · simp only [if_neg hfixed]
      exact emits_carryImage s x
  | bidirectional =>
    refine ⟨_, rfl, ?_⟩
    rw [← h.rowOf_eq hx]
    by_cases hfixed : s.image x = x
    · have hzero : Bits.weight (x ^^^ s.image x) = 0 := by rw [hfixed, Nat.xor_self]; rfl
      simp only [if_pos hfixed]
      rw [Nat.min_eq_left (by omega)]
      exact emits_of_fixed hfixed
    · simp only [if_neg hfixed]
      split
      · next hle =>
        rw [Nat.min_eq_left hle]
        exact emits_carryImage s x
      · next hlt =>
        rw [Nat.min_eq_right (by omega), Nat.xor_comm]
        exact emits_bringRow (s.report _) x (s.rowOf x)
  | multidirectional =>
    have hsize := h.size_table
    obtain ⟨z, hz, hle, hlt, hleast⟩ := exists_cheapestRow s (x := x) (by omega)
    refine ⟨s.cost x z, ⟨⟨z, hle, hlt, rfl⟩, ?_⟩, ?_⟩
    · rintro price ⟨y, hxy, hy, rfl⟩
      exact hleast y hxy hy
    · simp only [hz]
      split
      · exact emits_move s hsize hx (by omega)
      · exact emits_move (s.report _) hsize hx (by omega)

/-! ## The whole run -/

theorem Reduces.length_gates_step_le (h : Reduces n original x s) (hx : x < 2 ^ n)
    (direction : Direction) :
    (s.step direction x).gates.length ≤ s.gates.length + Bits.weight (x ^^^ s.image x) := by
  obtain ⟨k, hprice, hemits⟩ := h.emits_step hx direction
  have hle := hprice.le_weight (by rw [h.size_table]; exact hx)
  rw [hemits.length_gates]
  omega

/-- No row costs more than there are bits. -/
theorem length_gates_stateAt_le {table : Array Nat}
    (h : IsRangePermutation (2 ^ n) table.toList) (direction : Direction) (hx : x ≤ 2 ^ n) :
    (stateAt direction table x).gates.length ≤ n * x := by
  induction x with
  | zero => exact Nat.zero_le _
  | succ x ih =>
    have hreduces := reduces_stateAt h direction (show x ≤ 2 ^ n by omega)
    have hstep := hreduces.length_gates_step_le hx direction
    have hweight := Bits.weight_le (Nat.xor_lt_two_pow hx (hreduces.image_lt hx))
    have hrest := ih (by omega)
    rw [stateAt_succ, Nat.mul_succ]
    omega

/-- When all rows but the last are fixed, so is the last. -/
theorem Reduces.image_last (h : Reduces n original (2 ^ n - 1) s) :
    s.image (2 ^ n - 1) = 2 ^ n - 1 := by
  have hpos : 0 < 2 ^ n := Nat.two_pow_pos n
  have hle := h.le_image (Nat.le_refl _) (show 2 ^ n - 1 < 2 ^ n by omega)
  have hlt := h.image_lt (show 2 ^ n - 1 < 2 ^ n by omega)
  omega

theorem length_gates_reduce_le {table : Array Nat}
    (h : IsRangePermutation (2 ^ n) table.toList) (direction : Direction) :
    (reduce direction table).gates.length ≤ n * (2 ^ n - 1) := by
  have hpos : 0 < 2 ^ n := Nat.two_pow_pos n
  have hlast := reduces_stateAt h direction (show 2 ^ n - 1 ≤ 2 ^ n by omega)
  have hstep := hlast.length_gates_step_le (by omega) direction
  rw [← stateAt_succ, Nat.sub_add_cancel hpos, ← reduce_eq_stateAt direction h, hlast.image_last,
    Nat.xor_self, Bits.weight_zero] at hstep
  exact hstep.trans (length_gates_stateAt_le h direction (by omega))

/-! ## The identity -/

/-- As long as there are no gates, the table is the original one. -/
theorem Reduces.image_eq_of_gates_eq_nil (h : Reduces n original x s) (hnil : s.gates = [])
    {i : Nat} (hi : i < 2 ^ n) : s.image i = original.getD i 0 := by
  obtain ⟨hinput, houtput⟩ := List.append_eq_nil_iff.mp hnil
  have hrealizes := h.realizes i hi
  rwa [hinput, houtput, run_nil, run_nil] at hrealizes

theorem gates_stateAt_identityTable (n : Nat) (direction : Direction) (hx : x ≤ 2 ^ n) :
    (stateAt direction (ReversibleFunction.identityTable (2 ^ n)) x).gates = [] := by
  have hperm := ReversibleFunction.isRangePermutation_identityTable (2 ^ n)
  induction x with
  | zero => rfl
  | succ x ih =>
    have hreduces := reduces_stateAt hperm direction (show x ≤ 2 ^ n by omega)
    have hnil := ih (by omega)
    have hfixed : (stateAt direction (ReversibleFunction.identityTable (2 ^ n)) x).image x = x := by
      rw [hreduces.image_eq_of_gates_eq_nil hnil hx]
      simp [ReversibleFunction.identityTable, Array.getD, show x < 2 ^ n from hx]
    have hstep := hreduces.length_gates_step_le hx direction
    rw [hfixed, Nat.xor_self, hnil] at hstep
    rw [stateAt_succ]
    exact List.eq_nil_of_length_eq_zero (Nat.le_zero.mp hstep)

/-- Only the identity comes without gates. -/
theorem gates_reduce_eq_nil_iff {table : Array Nat}
    (h : IsRangePermutation (2 ^ n) table.toList) (direction : Direction) :
    (reduce direction table).gates = [] ↔ table = ReversibleFunction.identityTable (2 ^ n) := by
  constructor
  · intro hnil
    -- The table at the end is the identity, and nothing has changed it.
    have hreduces := reduces_reduce h direction
    apply Array.ext
    · simp [ReversibleFunction.identityTable, ← h.length_eq]
    · intro i hi hi'
      have himage := hreduces.image_eq_of_gates_eq_nil hnil (i := i) (h.length_eq ▸ hi)
      rw [hreduces.fixed i (h.length_eq ▸ hi)] at himage
      simpa [Array.getD, hi, ReversibleFunction.identityTable, eq_comm] using himage
  · rintro rfl
    rw [reduce_eq_stateAt direction h]
    exact gates_stateAt_identityTable n direction (Nat.le_refl _)

/-! ## Circuits -/

/-- Few gates, each of them a Toffoli gate with positive controls, and none at
all for the identity alone. -/
structure IsCascadeFor (f : ReversibleFunction) (gates : List Gate) : Prop where
  length_le : gates.length ≤ f.width * (2 ^ f.width - 1)
  toffoli : ∀ g ∈ gates, ∃ controls target, g = .mcx controls [target] ∧
    ∀ w ∈ controls, w.polarity = .positive ∧ w.sameWire target = false
  eq_nil_iff : gates = [] ↔ f.isIdentity = true

theorem isCascadeFor_reduce {c : Circuit} {p : Placement} {f : ReversibleFunction}
    (hp : p.Fits c f.width) (direction : Direction) :
    IsCascadeFor f ((reduce direction f.table).gates.map (·.toGate p)) := by
  have hreduces := reduces_reduce f.isPermutation direction
  refine ⟨?_, fun g hg => ?_, ?_⟩
  · rw [List.length_map]
    exact length_gates_reduce_le f.isPermutation direction
  · obtain ⟨t, ht, rfl⟩ := List.mem_map.mp hg
    exact hp.toGate_eq_mcx (hreduces.wellFormed_gates t ht)
  · rw [List.map_eq_nil_iff, gates_reduce_eq_nil_iff f.isPermutation direction,
      ReversibleFunction.isIdentity, beq_iff_eq, ReversibleFunction.size, f.size_table]

/-- **Cost of a cascade.** The reduction goes from one row to the next, and for
each row exactly its price in the table of that moment is paid. The circuit has
the gates of the reduction. In total there are at most `n * (2 ^ n - 1)` for a
function on `n` bits, all of them with a single target outside their positive
controls, and there are none exactly for the identity; on qubits of its own as
well as on an accepted placement. -/
theorem synthesize_pays_prices (f : ReversibleFunction) (direction : Direction) :
    reduce direction f.table = stateAt direction f.table (2 ^ f.width) ∧
    (∀ x < 2 ^ f.width, ∃ k, (stateAt direction f.table x).IsPrice direction x k ∧
      Emits k (stateAt direction f.table x) (stateAt direction f.table (x + 1))) ∧
    (∃ s, synthesize f direction = .ok s ∧
      s.circuit.liveGates =
        (reduce direction f.table).gates.map (·.toGate (Circuit.ofQubits f.width).qubits) ∧
      IsCascadeFor f s.circuit.liveGates) ∧
    ∀ (c : Circuit) (p : Placement), p.check c f.width = .ok () →
      ∃ r gates, appendTo c p f direction = .ok r ∧
        r.circuit.liveGates = c.liveGates ++ gates ∧
        gates = (reduce direction f.table).gates.map (·.toGate p) ∧ IsCascadeFor f gates := by
  refine ⟨reduce_eq_stateAt direction f.isPermutation, fun x hx => ?_, ?_, fun c p hcheck => ?_⟩
  · rw [stateAt_succ]
    exact (reduces_stateAt f.isPermutation direction (Nat.le_of_lt hx)).emits_step hx direction
  · have hfits := Circuit.fits_ofQubits f.width
    obtain ⟨events, happend⟩ := appendTo_eq_ok hfits direction
    refine ⟨_, by rw [synthesize, happend]; rfl, ?_⟩
    show Circuit.liveGates (List.foldl Circuit.place _ _) = _ ∧
      IsCascadeFor f (Circuit.liveGates (List.foldl Circuit.place _ _))
    rw [Circuit.foldl_place_liveGates, Circuit.ofQubits_liveGates, List.nil_append]
    exact ⟨rfl, isCascadeFor_reduce hfits direction⟩
  · have hfits := Placement.check_eq_ok_iff.mp hcheck
    obtain ⟨events, happend⟩ := appendTo_eq_ok hfits direction
    exact ⟨_, _, happend, Circuit.foldl_place_liveGates _ c, rfl,
      isCascadeFor_reduce hfits direction⟩

/-- All zeros and all ones on three bits are exchanged. -/
def outermost : ReversibleFunction where
  width := 3
  table := #[7, 1, 2, 3, 4, 5, 6, 0]
  width_le := by decide
  isPermutation := RangePermutation.isRangePermutation_iff.mpr (by decide)

/-- The first row takes three gates in one direction. In many directions it
takes two, since row one is closer and holds a closer value. -/
theorem synthesize_pays_prices_outermost :
    Emits 3 (stateAt .unidirectional outermost.table 0)
      (stateAt .unidirectional outermost.table 1) ∧
    Emits 2 (stateAt .multidirectional outermost.table 0)
      (stateAt .multidirectional outermost.table 1) ∧
    ∃ s, synthesize outermost .multidirectional = .ok s ∧ s.circuit.liveGates.length ≤ 21 ∧
      s.circuit.liveGates ≠ [] := by
  obtain ⟨-, hrows, -, -⟩ := synthesize_pays_prices outermost .unidirectional
  obtain ⟨-, hrows', ⟨s, hs, -, hcascade⟩, -⟩ := synthesize_pays_prices outermost .multidirectional
  obtain ⟨k, hprice, hemits⟩ := hrows 0 (by decide)
  obtain ⟨k', hprice', hemits'⟩ := hrows' 0 (by decide)
  obtain rfl : k = 3 := hprice.trans (by decide)
  have hleast : (stateAt .multidirectional outermost.table 0).IsPrice .multidirectional 0 2 := by
    refine ⟨⟨1, by decide, by decide, by decide⟩, ?_⟩
    rintro price ⟨z, -, hz, rfl⟩
    revert z
    decide
  obtain rfl : k' = 2 := hprice'.unique hleast
  refine ⟨hemits, hemits', s, hs, hcascade.length_le, fun hnil => ?_⟩
  have hidentity := hcascade.eq_nil_iff.mp hnil
  revert hidentity
  decide

end Cascade

end CircuitSynthesis
