import CircuitSynthesis.Proofs.Circuit.Sound
import CircuitSynthesis.Simulation
import Mathlib.Algebra.Group.Fin.Basic
import Mathlib.Data.ZMod.Defs

/-!
# Gates act on their own wires

Whether a gate maps basis states to basis states depends on the gate alone.
If it does, it flips some bits of the pattern and turns the phase by some
eighths. Both depend only on the values of the gate's wires, and only these
wires are flipped. Gates without a common wire therefore commute
(`Gate.advance_comm`). What a circuit does to a basis state is the fold of
these steps over its unmarked gates (`Circuit.simulate_eq_ok_iff`,
`Circuit.phaseOf_eq_ok_iff`).
-/

namespace CircuitSynthesis

/-- A step that commutes with all steps of a list may be taken before them. -/
theorem step_foldl_of_comm {σ α : Type} {step : σ → α → σ} {a : α} {l : List α}
    (hcomm : ∀ b ∈ l, ∀ s, step (step s b) a = step (step s a) b) (s : σ) :
    step (l.foldl step s) a = l.foldl step (step s a) := by
  induction l generalizing s with
  | nil => rfl
  | cons b l ih =>
    obtain ⟨hb, hl⟩ := List.forall_mem_cons.mp hcomm
    rw [List.foldl_cons, ih hl, hb, List.foldl_cons]

@[simp] theorem Angle.eighths_turn (k : Fin 8) : (Angle.turn k).eighths = k := rfl

@[simp] theorem Angle.eighths_zero : (0 : Angle).eighths = 0 := rfl

namespace Gate

/-- The positions of the wires a gate acts on. -/
def indices (g : Gate) : List Nat := g.operands.map Wire.index

/-- The gate maps every basis state to a basis state. -/
def isClassical (g : Gate) : Bool :=
  match g.operation with
  | .pauli _ | .cx | .mcx | .swap => true
  | op => op.isDiagonal

/-- The angle of the gate, if it has one, is a number of eighth turns. -/
def isExact (g : Gate) : Bool := g.operation.angle?.all Angle.isExact

/-- The positions of wires, as a bit set. -/
def mask : List Wire → Nat
  | [] => 0
  | w :: ws => 2 ^ w.index ^^^ mask ws

/-- The bits that a gate flips in a pattern. -/
def flips (g : Gate) (x : Nat) : Nat :=
  match g.operation with
  | .pauli .x | .pauli .y | .cx | .mcx => if g.isActive x then mask g.targets else 0
  | .swap =>
    match g.targets with
    | v :: w :: _ => if valueOf x v == valueOf x w then 0 else mask [v, w]
    | _ => 0
  | _ => 0

/-- The eighth turns that a gate with an exact angle gives to a pattern. -/
def eighthsAt (g : Gate) (x : Nat) : Fin 8 :=
  match g.operation with
  | .pauli .y => (Angle.ofEighths (if g.targets.any (valueOf x) then 6 else 2)).eighths
  | op => (op.diagonalPhase?.elim 0 fun angle => g.diagonalTurn angle x 0).eighths

/-- The step a gate takes on a pattern and a number of eighth turns. -/
def advance (s : Nat × Fin 8) (g : Gate) : Nat × Fin 8 :=
  (s.1 ^^^ g.flips s.1, s.2 + g.eighthsAt s.1)

/-! ## The simulation in steps -/

theorem foldl_xor_eq_mask (ws : List Wire) (x : Nat) :
    ws.foldl (fun x w => x ^^^ 2 ^ w.index) x = x ^^^ mask ws := by
  induction ws generalizing x with
  | nil => simp [mask]
  | cons w ws ih => rw [List.foldl_cons, ih, mask, Nat.xor_assoc]

theorem flipAll_eq (g : Gate) (x : Nat) : g.flipAll x = x ^^^ mask g.targets :=
  foldl_xor_eq_mask g.targets x

theorem exchangeTargets_eq {g : Gate} (hswap : g.operation = .swap) (x : Nat) :
    g.exchangeTargets x = x ^^^ g.flips x := by
  obtain ⟨op, controls, targets⟩ := g
  subst hswap
  match targets with
  | [] | [_] => simp [exchangeTargets, flips]
  | v :: w :: _ =>
    by_cases heq : (valueOf x v == valueOf x w) = true
    · simp [exchangeTargets, exchange, flips, heq]
    · simp [exchangeTargets, exchange, flips, heq, mask, Nat.xor_assoc]

theorem ite_flipAll (g : Gate) (x : Nat) :
    (if g.isActive x then g.flipAll x else x) =
      x ^^^ if g.isActive x then mask g.targets else 0 := by
  cases g.isActive x <;> simp [flipAll_eq]

/-- On patterns a gate flips its bits, or is refused whatever the pattern. -/
theorem onPattern_eq (x : Nat) (g : Gate) :
    onPattern x g = if g.isClassical then .ok (x ^^^ g.flips x) else .error (.notClassical g) := by
  have hactive := g.ite_flipAll x
  cases hop : g.operation with
  | pauli axis => cases axis <;> simp_all [onPattern, isClassical, flips, Operation.isDiagonal,
      Operation.diagonalPhase?]
  | cx | mcx => simp_all [onPattern, isClassical, flips]
  | swap => simp [onPattern, isClassical, hop, exchangeTargets_eq hop]
  | rotation axis angle => cases axis <;> simp [onPattern, isClassical, flips, hop,
      Operation.isDiagonal, Operation.diagonalPhase?]
  | _ => simp [onPattern, isClassical, flips, hop, Operation.isDiagonal, Operation.diagonalPhase?]

theorem foldl_turn (ws : List Wire) (x : Nat) (a k : Fin 8) :
    ws.foldl (fun phase w => if valueOf x w then phase + .turn a else phase) (Angle.turn k) =
      .turn (k + ws.countP (valueOf x) • a) := by
  induction ws generalizing k with
  | nil => simp
  | cons w ws ih =>
    rw [List.foldl_cons, List.countP_cons]
    cases hw : valueOf x w with
    | false => simpa using ih k
    | true =>
      rw [if_pos rfl, Angle.turn_add_turn, ih, if_pos rfl, succ_nsmul', add_assoc]

theorem diagonalTurn_turn (g : Gate) (x : Nat) (a k : Fin 8) :
    g.diagonalTurn (.turn a) x (.turn k) =
      .turn (k + if g.isActive x then g.targets.countP (valueOf x) • a else 0) := by
  unfold diagonalTurn
  cases g.isActive x with
  | false => simp
  | true => exact foldl_turn g.targets x a k

theorem eighths_diagonalTurn (g : Gate) (x : Nat) (a : Fin 8) :
    (g.diagonalTurn (.turn a) x 0).eighths =
      if g.isActive x then g.targets.countP (valueOf x) • a else 0 :=
  (congrArg Angle.eighths (g.diagonalTurn_turn x a 0)).trans (zero_add _)

/-- A valid Pauli gate has one target and nothing else. -/
theorem operands_of_pauli {g : Gate} (hvalid : g.validate = .ok ()) {axis : Axis}
    (hop : g.operation = .pauli axis) : g.controls = [] ∧ ∃ w, g.targets = [w] := by
  have haccepts := ((validate_eq_ok_iff g).mp hvalid).1
  rw [hop] at haccepts
  have hlengths : g.controls.length = 0 ∧ g.targets.length = 1 := by
    simpa [Operation.accepts] using haccepts
  exact ⟨List.length_eq_zero_iff.mp hlengths.1, List.length_eq_one_iff.mp hlengths.2⟩

/-- On states a valid gate with an exact angle takes its step, or is refused
whatever the state. -/
theorem onState_eq {g : Gate} (hvalid : g.validate = .ok ()) (hexact : g.isExact = true)
    (x : Nat) (k : Fin 8) :
    onState (x, .turn k) g =
      if g.isClassical then .ok ((advance (x, k) g).1, .turn (advance (x, k) g).2)
      else .error (.notClassical g) := by
  have hactive := g.ite_flipAll x
  cases hop : g.operation with
  | pauli axis =>
    obtain ⟨hcontrols, w, htargets⟩ := operands_of_pauli hvalid hop
    have hon : g.isActive x = true := by simp [isActive, hcontrols]
    cases axis with
    | x => simp_all [onState, isClassical, advance, flips, eighthsAt, Operation.diagonalPhase?]
    | y =>
      cases hw : valueOf x w <;>
        simp_all [onState, isClassical, advance, flips, eighthsAt, flipAll_eq, Angle.ofEighths]
    | z =>
      simp [onState, isClassical, advance, flips, eighthsAt, hop, Operation.diagonalPhase?,
        Angle.ofEighths, diagonalTurn_turn, eighths_diagonalTurn]
  | cx | mcx =>
    simp_all [onState, isClassical, advance, flips, eighthsAt, Operation.diagonalPhase?]
  | swap =>
    simp [onState, isClassical, advance, eighthsAt, hop, exchangeTargets_eq hop,
      Operation.diagonalPhase?]
  | rotation axis angle =>
    obtain ⟨a, rfl⟩ : ∃ a, angle = .turn a := by
      simpa [isExact, hop, Operation.angle?, Angle.isExact_iff] using hexact
    cases axis <;> simp [onState, isClassical, advance, flips, eighthsAt, hop,
      Operation.isDiagonal, Operation.diagonalPhase?, diagonalTurn_turn, eighths_diagonalTurn]
  | _ =>
    simp [onState, isClassical, advance, flips, eighthsAt, hop, Operation.isDiagonal,
      Operation.diagonalPhase?, Angle.ofEighths, diagonalTurn_turn, eighths_diagonalTurn]

/-- A list of gates is run on patterns exactly when all of them are classical. -/
theorem foldlM_onPattern_eq_ok_iff {gates : List Gate} {x y : Nat} (k : Fin 8) :
    gates.foldlM onPattern x = .ok y ↔
      (∀ g ∈ gates, g.isClassical = true) ∧ (gates.foldl advance (x, k)).1 = y := by
  induction gates generalizing x k with
  | nil => simp [pure, Except.pure]
  | cons g gates ih =>
    rw [List.foldlM_cons, onPattern_eq, List.foldl_cons, List.forall_mem_cons]
    cases g.isClassical with
    | false => simp [bind, Except.bind]
    | true => simpa [bind, Except.bind, advance] using ih (k + g.eighthsAt x)

/-- A list of valid gates with exact angles is run on states exactly when all
of them are classical. -/
theorem foldlM_onState_eq_ok_iff {gates : List Gate} (hvalid : ∀ g ∈ gates, g.validate = .ok ())
    (hexact : ∀ g ∈ gates, g.isExact = true) {x : Nat} {k : Fin 8} {s : Nat × Angle} :
    gates.foldlM onState (x, .turn k) = .ok s ↔ (∀ g ∈ gates, g.isClassical = true) ∧
      ((gates.foldl advance (x, k)).1, .turn (gates.foldl advance (x, k)).2) = s := by
  induction gates generalizing x k with
  | nil => simp [pure, Except.pure]
  | cons g gates ih =>
    obtain ⟨hg, hvalid⟩ := List.forall_mem_cons.mp hvalid
    obtain ⟨hturn, hexact⟩ := List.forall_mem_cons.mp hexact
    rw [List.foldlM_cons, onState_eq hg hturn, List.foldl_cons, List.forall_mem_cons]
    cases g.isClassical with
    | false => simp [bind, Except.bind]
    | true => simpa [bind, Except.bind] using ih hvalid hexact

/-! ## Locality -/

variable {g h : Gate} {x y : Nat}

theorem mem_indices_of_mem_targets {w : Wire} (hw : w ∈ g.targets) : w.index ∈ g.indices :=
  List.mem_map_of_mem (List.mem_append_right _ hw)

theorem indices_eq_append (g : Gate) :
    g.indices = g.controls.map Wire.index ++ g.targets.map Wire.index := List.map_append

/-- Controls and targets are at different positions, and so are two targets. -/
theorem of_nodup_indices (hnodup : g.indices.Nodup) :
    (∀ v ∈ g.controls, ∀ w ∈ g.targets, v.index ≠ w.index) ∧
      (g.targets.map Wire.index).Nodup := by
  rw [indices_eq_append] at hnodup
  obtain ⟨-, htargets, hne⟩ := List.nodup_append.mp hnodup
  exact ⟨fun v hv w hw => hne _ (List.mem_map_of_mem hv) _ (List.mem_map_of_mem hw), htargets⟩

theorem exists_index_of_testBit_mask {ws : List Wire} {i : Nat}
    (hi : (mask ws).testBit i = true) : ∃ w ∈ ws, w.index = i := by
  induction ws with
  | nil => simp [mask] at hi
  | cons w ws ih =>
    rw [mask, Nat.testBit_xor, Nat.testBit_two_pow] at hi
    by_cases hw : w.index = i
    · exact ⟨w, List.mem_cons_self, hw⟩
    · obtain ⟨v, hv, hindex⟩ := ih (by simpa [hw] using hi)
      exact ⟨v, List.mem_cons_of_mem _ hv, hindex⟩

/-- A gate flips some of its targets. -/
theorem exists_flips_eq_mask (g : Gate) (x : Nat) : ∃ ws ⊆ g.targets, g.flips x = mask ws := by
  have hnone : ∃ ws ⊆ g.targets, 0 = mask ws := ⟨[], List.nil_subset _, rfl⟩
  unfold flips
  split
  case h_5 =>
    split
    case h_1 v w rest htargets =>
      split
      · exact hnone
      · exact ⟨[v, w], by simp [htargets], rfl⟩
    case h_2 => exact hnone
  case h_6 => exact hnone
  all_goals
    split
    · exact ⟨g.targets, List.Subset.refl _, rfl⟩
    · exact hnone

/-- A gate flips bits of its own wires only. -/
theorem mem_indices_of_testBit_flips {i : Nat} (hi : (g.flips x).testBit i = true) :
    i ∈ g.indices := by
  obtain ⟨ws, hsub, hflips⟩ := g.exists_flips_eq_mask x
  rw [hflips] at hi
  obtain ⟨w, hw, rfl⟩ := exists_index_of_testBit_mask hi
  exact mem_indices_of_mem_targets (hsub hw)

/-- The patterns agree on the wires of the gate. -/
def Agree (g : Gate) (x y : Nat) : Prop := ∀ i ∈ g.indices, x.testBit i = y.testBit i

theorem Agree.valueOf_eq (hagree : g.Agree x y) {w : Wire} (hw : w ∈ g.operands) :
    valueOf x w = valueOf y w := hagree w.index (List.mem_map_of_mem hw)

theorem Agree.isActive_eq (hagree : g.Agree x y) : g.isActive x = g.isActive y := by
  unfold isActive
  rw [Bool.eq_iff_iff, List.all_eq_true, List.all_eq_true]
  refine forall₂_congr fun w hw => ?_
  rw [hagree.valueOf_eq (List.mem_append_left _ hw)]

theorem Agree.flips_eq (hagree : g.Agree x y) : g.flips x = g.flips y := by
  unfold flips
  rw [hagree.isActive_eq]
  split
  case h_5 =>
    split
    case h_1 v w rest htargets =>
      have hoperand : ∀ u ∈ v :: w :: rest, u ∈ g.operands := fun u hu =>
        List.mem_append_right _ (htargets ▸ hu)
      rw [hagree.valueOf_eq (hoperand v (by simp)), hagree.valueOf_eq (hoperand w (by simp))]
    case h_2 => rfl
  all_goals rfl

theorem Agree.eighthsAt_eq (hagree : g.Agree x y) : g.eighthsAt x = g.eighthsAt y := by
  have hvalues : ∀ w ∈ g.targets, valueOf x w = valueOf y w := fun w hw =>
    hagree.valueOf_eq (List.mem_append_right _ hw)
  have hany : g.targets.any (valueOf x) = g.targets.any (valueOf y) := by
    rw [Bool.eq_iff_iff, List.any_eq_true, List.any_eq_true]
    exact exists_congr fun w => and_congr_right fun hw => by rw [hvalues w hw]
  have hturn (angle : Angle) : g.diagonalTurn angle x 0 = g.diagonalTurn angle y 0 := by
    unfold diagonalTurn
    rw [hagree.isActive_eq, List.foldl_ext _ _ _ fun phase w hw => by rw [hvalues w hw]]
  unfold eighthsAt
  rw [hany]
  simp only [hturn]

/-- A gate does not see what another one does on other wires. -/
theorem agree_xor_flips (hdisjoint : List.Disjoint g.indices h.indices) (x : Nat) :
    h.Agree (x ^^^ g.flips x) x := by
  intro i hi
  have hflips : (g.flips x).testBit i = false := by
    rw [Bool.eq_false_iff]
    exact fun hflip => hdisjoint (mem_indices_of_testBit_flips hflip) hi
  rw [Nat.testBit_xor, hflips, Bool.xor_false]

/-- Gates without a common wire commute. -/
theorem advance_comm (hdisjoint : List.Disjoint g.indices h.indices) (s : Nat × Fin 8) :
    advance (advance s g) h = advance (advance s h) g := by
  have hg := agree_xor_flips hdisjoint.symm s.1
  have hh := agree_xor_flips hdisjoint s.1
  simp only [advance]
  rw [hg.flips_eq, hg.eighthsAt_eq, hh.flips_eq, hh.eighthsAt_eq, Nat.xor_assoc,
    Nat.xor_comm (g.flips s.1), ← Nat.xor_assoc, add_right_comm]

/-! ## Gates on different wires -/

/-- The two gates act on a common wire. -/
def sharesWire (g h : Gate) : Bool := g.operands.any h.touches

theorem sharesWire_of_touches {g h : Gate} {w : Wire} (hg : g.touches w = true)
    (hh : h.touches w = true) : g.sharesWire h = true := by
  obtain ⟨v, hv, hsame⟩ := List.any_eq_true.mp hg
  obtain ⟨u, hu, hsame'⟩ := List.any_eq_true.mp hh
  refine List.any_eq_true.mpr ⟨v, hv, List.any_eq_true.mpr ⟨u, hu, ?_⟩⟩
  rw [Wire.sameWire_iff] at hsame hsame' ⊢
  exact ⟨hsame'.1.trans hsame.1.symm, hsame'.2.trans hsame.2.symm⟩

theorem touches_of_mem {g : Gate} {w : Wire} (hw : w ∈ g.operands) : g.touches w = true :=
  List.any_eq_true.mpr ⟨w, hw, Wire.sameWire_iff.mpr ⟨rfl, rfl⟩⟩

/-- A valid gate has an operand. -/
theorem operands_ne_nil {g : Gate} (hvalid : g.validate = .ok ()) : g.operands ≠ [] := by
  have haccepts := ((validate_eq_ok_iff g).mp hvalid).1
  intro hnil
  obtain ⟨hcontrols, htargets⟩ := List.append_eq_nil_iff.mp hnil
  rw [hcontrols, htargets] at haccepts
  cases hop : g.operation <;> simp [hop, Operation.accepts] at haccepts

end Gate

/-- Gates of one circuit without a common wire use different positions. -/
theorem Circuit.Admits.disjoint_indices {c : Circuit} {g h : Gate} (hg : c.Admits g)
    (hh : c.Admits h) (hshare : g.sharesWire h = false) : List.Disjoint g.indices h.indices := by
  intro i hi hi'
  obtain ⟨v, hv, rfl⟩ := List.mem_map.mp hi
  obtain ⟨w, hw, hindex⟩ := List.mem_map.mp hi'
  obtain ⟨t, ht, hkind⟩ := exists_track_of_isSome (hg.onWires v hv)
  obtain ⟨t', ht', hkind'⟩ := exists_track_of_isSome (hh.onWires w hw)
  rw [hindex, ht] at ht'
  cases ht'
  have hsame : w.sameWire v = true := Wire.sameWire_iff.mpr ⟨hindex, hkind'.symm.trans hkind⟩
  have htouches : h.touches v = true := List.any_eq_true.mpr ⟨w, hw, hsame⟩
  rw [Gate.sharesWire, List.any_eq_false] at hshare
  exact hshare v hv htouches

/-! ## Whole circuits -/

theorem admitQubits_bind_eq_ok_iff {α : Type} {limit width : Nat} {r : Except SynthesisError α}
    {a : α} : (admitQubits limit width >>= fun _ => r) = .ok a ↔ width ≤ limit ∧ r = .ok a := by
  by_cases hwidth : width ≤ limit
  · simp [admitQubits, hwidth, bind, Except.bind]
  · simp [admitQubits, hwidth, bind, Except.bind]

namespace Circuit

variable {c : Circuit} {x y : Nat}

/-- A circuit is simulated exactly when it is not too wide and all its gates
are classical. -/
theorem simulate_eq_ok_iff (k : Fin 8) :
    c.simulate x = .ok y ↔ c.wireCount ≤ Bits.wordSize ∧
      (∀ g ∈ c.liveGates, g.isClassical = true) ∧
      (c.liveGates.foldl Gate.advance (x, k)).1 = y := by
  rw [← Gate.foldlM_onPattern_eq_ok_iff]
  exact admitQubits_bind_eq_ok_iff

/-- With exact angles the phase is known exactly when the output pattern is. -/
theorem phaseOf_eq_ok_iff (hvalid : ∀ g ∈ c.liveGates, g.validate = .ok ())
    (hexact : ∀ g ∈ c.liveGates, g.isExact = true) {phase : Angle} :
    c.phaseOf x = .ok phase ↔ c.wireCount ≤ Bits.wordSize ∧
      (∀ g ∈ c.liveGates, g.isClassical = true) ∧
      .turn (c.liveGates.foldl Gate.advance (x, 0)).2 = phase := by
  refine admitQubits_bind_eq_ok_iff.trans (and_congr_right fun _ => ?_)
  have hrun (s : Nat × Angle) : c.liveGates.foldlM Gate.onState (x, 0) = .ok s ↔ _ :=
    Gate.foldlM_onState_eq_ok_iff hvalid hexact
  cases hfold : c.liveGates.foldlM Gate.onState (x, 0) with
  | ok s =>
    obtain ⟨hclassical, rfl⟩ := (hrun s).mp hfold
    simpa [bind, Except.bind, pure, Except.pure] using fun _ => hclassical
  | error e =>
    constructor
    · intro h
      cases h
    · intro h
      rw [(hrun _).mpr ⟨h.1, rfl⟩] at hfold
      cases hfold

end Circuit

end CircuitSynthesis
