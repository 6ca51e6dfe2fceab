import CircuitSynthesis.Proofs.Atomicity
import CircuitSynthesis.Proofs.Simulation.Locality

/-!
# Placements with complemented entries

A placement is accepted whatever the polarities of its entries. A cascade does
not see them: it is the same on the positive version of the placement. The
engines that emit CNOTs take the entries as they are, so a complemented entry
becomes a complemented control (`Cnot.edit_complemented`). On the positive
version they append the same gates to the same wires with positive operands.
The two blocks of gates do the same as long as no control is complemented. In
general one is the other between two flips of all complemented wires
(`engines_polarity`).
-/

namespace CircuitSynthesis

theorem Wire.positive_eq_self {w : Wire} (h : w.isComplemented = false) : w.positive = w := by
  obtain ⟨index, kind, polarity⟩ := w
  cases polarity with
  | positive => rfl
  | negative => cases h

/-- The gate with all its operands positive. -/
def Gate.positive (g : Gate) : Gate :=
  { g with controls := g.controls.map Wire.positive, targets := g.targets.map Wire.positive }

namespace Placement

/-- The placement with all its entries positive. -/
def positive (p : Placement) : Placement := p.map Wire.positive

/-- The wires of the complemented entries, as a bit set. -/
def complemented (p : Placement) : Nat := Gate.mask (p.filter Wire.isComplemented)

variable {c : Circuit} {p : Placement} {n : Nat} {w : Wire}

@[simp] theorem length_positive (p : Placement) : p.positive.length = p.length :=
  List.length_map _

theorem wire_positive (p : Placement) (i : Nat) : p.positive.wire i = (p.wire i).positive := by
  unfold wire positive
  rw [← Wire.positive_qubit, List.getD_map]
  rfl

/-- The check does not look at polarities. -/
theorem fits_positive_iff : p.positive.Fits c n ↔ p.Fits c n where
  mp h := ⟨(length_positive p).symm.trans h.length_eq, List.forall_mem_map.mp h.isQubit,
    List.forall_mem_map.mp h.onWires, List.pairwise_map.mp h.distinct⟩
  mpr h := ⟨(length_positive p).trans h.length_eq, List.forall_mem_map.mpr h.isQubit,
    List.forall_mem_map.mpr h.onWires, List.pairwise_map.mpr h.distinct⟩

theorem select_positive (p : Placement) (s : Nat) : p.positive.select s = p.select s := by
  rw [select_eq_map, select_eq_map, length_positive]
  refine List.map_congr_left fun i _ => ?_
  rw [wire_positive]
  rfl

theorem testBit_mask_filter {ws : List Wire} (hnodup : (ws.map Wire.index).Nodup) (hw : w ∈ ws)
    (q : Wire → Bool) : (Gate.mask (ws.filter q)).testBit w.index = q w := by
  induction ws with
  | nil => cases hw
  | cons v ws ih =>
    obtain ⟨hv, hws⟩ := List.nodup_cons.mp hnodup
    have hhead (u : Wire) : (Gate.mask ((v :: ws).filter q)).testBit u.index =
        ((q v && decide (v.index = u.index)) ^^ (Gate.mask (ws.filter q)).testBit u.index) := by
      cases hq : q v <;> simp [hq, Gate.mask, Nat.testBit_two_pow]
    rcases List.mem_cons.mp hw with rfl | hw
    · have hclear : (Gate.mask (ws.filter q)).testBit w.index = false := by
        rw [Bool.eq_false_iff]
        intro hbit
        obtain ⟨u, hu, hindex⟩ := Gate.exists_index_of_testBit_mask hbit
        exact hv (hindex ▸ List.mem_map_of_mem (List.mem_filter.mp hu).1)
      simp [hhead, hclear]
    · have hne : v.index ≠ w.index := fun he => hv (he ▸ List.mem_map_of_mem hw)
      simp [hhead, ih hws hw, hne]

theorem Fits.testBit_complemented (h : p.Fits c n) (hw : w ∈ p) :
    p.complemented.testBit w.index = w.isComplemented :=
  testBit_mask_filter h.nodup_indices hw _

theorem composeOrder_positive (rewiring : List Nat) (p : Placement) (order : List Nat) :
    Cnot.composeOrder rewiring p.positive order = Cnot.composeOrder rewiring p order := by
  have hwire (i : Nat) : (p.positive.wire i).index = (p.wire i).index := by
    rw [wire_positive]
    rfl
  unfold Cnot.composeOrder
  simp only [hwire]
  rw [positive, List.zip_map_left, List.foldl_map]
  rfl

end Placement

namespace PhaseStep

variable {c : Circuit} {p : Placement} {n : Nat} {steps : List PhaseStep}

theorem toGate_positive (p : Placement) (s : PhaseStep) :
    s.toGate p.positive = (s.toGate p).positive := by
  cases s with
  | cnot g => simp [toGate, Cnot.toGate, Gate.cx, Gate.positive, Placement.wire_positive]
  | turn angle qubit => simp [toGate, Gate.rotationZ, Gate.positive, Placement.wire_positive]

theorem onPattern_cnot (p : Placement) (g : Cnot) (x : Nat) :
    Gate.onPattern x ((cnot g).toGate p) = .ok
      (if x.testBit (p.wire g.control).index != (p.wire g.control).isComplemented
        then x ^^^ 2 ^ (p.wire g.target).index else x) := by
  simp [toGate, Cnot.toGate, Gate.cx, Gate.onPattern, Gate.isActive, Gate.flipAll, Gate.valueOf]

/-- Between two flips of all complemented wires, a step on the positive version
of a placement is the step on the placement. -/
theorem onPattern_toGate_positive (hp : p.Fits c n) {s : PhaseStep} (hs : s.WellFormed n)
    (x : Nat) :
    ∃ y, Gate.onPattern x (s.toGate p) = .ok y ∧
      Gate.onPattern (x ^^^ p.complemented) (s.toGate p.positive) = .ok (y ^^^ p.complemented) := by
  cases s with
  | cnot g =>
    have hcontrol := hp.testBit_complemented
      (Placement.wire_mem (p := p) (i := g.control) (by rw [hp.length_eq]; exact hs.control_lt))
    refine ⟨_, onPattern_cnot p g x, ?_⟩
    rw [onPattern_cnot, Placement.wire_positive, Placement.wire_positive]
    generalize p.wire g.control = u at hcontrol ⊢
    have hactive : ((x ^^^ p.complemented).testBit u.index != u.positive.isComplemented) =
        (x.testBit u.index != u.isComplemented) := by
      rw [Nat.testBit_xor, hcontrol]
      cases x.testBit u.index <;> cases u.isComplemented <;> rfl
    rw [show u.positive.index = u.index from rfl, hactive]
    split
    · show Except.ok (x ^^^ p.complemented ^^^ 2 ^ _) = .ok (x ^^^ 2 ^ _ ^^^ p.complemented)
      rw [Nat.xor_assoc, Nat.xor_comm p.complemented, Nat.xor_assoc]
      rfl
    · rfl
  | turn angle qubit => exact ⟨x, rfl, rfl⟩

theorem foldlM_onPattern_positive (hp : p.Fits c n) (hsteps : ∀ s ∈ steps, s.WellFormed n)
    (x : Nat) :
    ∃ y, (steps.map (toGate p)).foldlM Gate.onPattern x = .ok y ∧
      (steps.map (toGate p.positive)).foldlM Gate.onPattern (x ^^^ p.complemented) =
        .ok (y ^^^ p.complemented) := by
  induction steps generalizing x with
  | nil => exact ⟨x, rfl, rfl⟩
  | cons s steps ih =>
    obtain ⟨hs, hsteps⟩ := List.forall_mem_cons.mp hsteps
    obtain ⟨y, hy, hy'⟩ := onPattern_toGate_positive hp hs x
    obtain ⟨z, hz, hz'⟩ := ih hsteps y
    refine ⟨z, ?_, ?_⟩
    · rw [List.map_cons, List.foldlM_cons, hy]
      exact hz
    · rw [List.map_cons, List.foldlM_cons, hy']
      exact hz'

/-- A step without complemented control does the same on the positive version
of the placement. -/
theorem toGate_positive_acts {s : PhaseStep}
    (hs : ∀ w ∈ (s.toGate p).controls, w.isComplemented = false) :
    (∀ x, Gate.onPattern x (s.toGate p.positive) = Gate.onPattern x (s.toGate p)) ∧
      ∀ state, Gate.onState state (s.toGate p.positive) = Gate.onState state (s.toGate p) := by
  cases s with
  | cnot g =>
    have hcontrol : (p.wire g.control).positive = p.wire g.control :=
      Wire.positive_eq_self (hs _ List.mem_cons_self)
    simp only [toGate, Cnot.toGate, Placement.wire_positive, hcontrol]
    exact ⟨fun _ => rfl, fun _ => rfl⟩
  | turn angle qubit =>
    simp only [toGate, Placement.wire_positive]
    exact ⟨fun _ => rfl, fun _ => rfl⟩

/-- Steps use entries of the placement only. -/
theorem mem_of_mem_operands (hp : p.Fits c n) {s : PhaseStep} (hs : s.WellFormed n) {w : Wire}
    (hw : w ∈ (s.toGate p).operands) : w ∈ p := by
  have hmem {i : Nat} (hi : i < n) : p.wire i ∈ p := Placement.wire_mem (by rwa [hp.length_eq])
  cases s with
  | cnot g =>
    have hw : w = p.wire g.control ∨ w = p.wire g.target := by
      simpa [toGate, Cnot.toGate, Gate.cx, Gate.operands] using hw
    rcases hw with rfl | rfl
    · exact hmem hs.control_lt
    · exact hmem hs.target_lt
  | turn angle qubit =>
    obtain rfl : w = p.wire qubit := by
      simpa [toGate, Gate.rotationZ, Gate.operands] using hw
    exact hmem hs

end PhaseStep

/-! ## Blocks of gates -/

theorem foldlM_map_congr {σ : Type} {step : σ → Gate → Except SynthesisError σ}
    {f g : PhaseStep → Gate} {steps : List PhaseStep}
    (h : ∀ s ∈ steps, ∀ x, step x (f s) = step x (g s)) (x : σ) :
    (steps.map f).foldlM step x = (steps.map g).foldlM step x := by
  induction steps generalizing x with
  | nil => rfl
  | cons s steps ih =>
    obtain ⟨hs, hsteps⟩ := List.forall_mem_cons.mp h
    rw [List.map_cons, List.map_cons, List.foldlM_cons, List.foldlM_cons, hs]
    exact bind_congr fun y => ih hsteps y

/-- No gate of the list has a complemented control. -/
def Uncomplemented (gates : List Gate) : Prop :=
  ∀ g ∈ gates, ∀ w ∈ g.controls, w.isComplemented = false

theorem map_controls_positive_iff (gates : List Gate) :
    (gates.map Gate.positive).map Gate.controls = gates.map Gate.controls ↔
      Uncomplemented gates := by
  rw [List.map_map, List.map_inj_left]
  refine forall₂_congr fun g _ => ?_
  have hself : g.controls.map Wire.positive = g.controls.map id ↔
      ∀ w ∈ g.controls, w.positive = w := List.map_inj_left
  rw [List.map_id] at hself
  refine hself.trans (forall₂_congr fun w _ => ⟨fun h => ?_, Wire.positive_eq_self⟩)
  rw [← h]
  rfl

/-- The second list has the gates of the first with positive operands. The
gates of the first have the polarities of the placement, and what this does
to their action. -/
structure Reflects (p : Placement) (gates gates' : List Gate) : Prop where
  positive : gates' = gates.map Gate.positive
  operands : ∀ g ∈ gates, ∀ w ∈ g.operands, w ∈ p
  controls_eq_iff : gates'.map Gate.controls = gates.map Gate.controls ↔ Uncomplemented gates
  same_action : Uncomplemented gates →
    (∀ x, gates'.foldlM Gate.onPattern x = gates.foldlM Gate.onPattern x) ∧
      ∀ state, gates'.foldlM Gate.onState state = gates.foldlM Gate.onState state
  conjugate_action : ∀ x, ∃ y, gates.foldlM Gate.onPattern x = .ok y ∧
    gates'.foldlM Gate.onPattern (x ^^^ p.complemented) = .ok (y ^^^ p.complemented)

theorem PhaseStep.reflects {c : Circuit} {p : Placement} {n : Nat} (hp : p.Fits c n)
    {steps : List PhaseStep} (hsteps : ∀ s ∈ steps, s.WellFormed n) :
    Reflects p (steps.map (toGate p)) (steps.map (toGate p.positive)) := by
  have hpositive : steps.map (toGate p.positive) = (steps.map (toGate p)).map Gate.positive := by
    rw [List.map_map]
    exact List.map_congr_left fun s _ => toGate_positive p s
  refine ⟨hpositive, ?_, ?_, ?_, foldlM_onPattern_positive hp hsteps⟩
  · exact List.forall_mem_map.mpr fun s hs w hw => mem_of_mem_operands hp (hsteps s hs) hw
  · rw [hpositive]
    exact map_controls_positive_iff _
  · intro huncomplemented
    have hsame (s : PhaseStep) (hs : s ∈ steps) :=
      toGate_positive_acts (p := p) fun w hw =>
        huncomplemented _ (List.mem_map_of_mem hs) w hw
    exact ⟨foldlM_map_congr fun s hs => (hsame s hs).1, foldlM_map_congr fun s hs => (hsame s hs).2⟩

/-- Where the arguments are accepted, the second edit appends what the first one
appends, with positive operands, and permutes the wires in the same way. Where
they are not, both leave the circuit as it was. -/
structure Mirrors (c : Circuit) (p : Placement) (accepts : Prop)
    (edit edit' : Edit (List Event)) : Prop where
  appends : accepts → ∃ events events' d d' gates gates',
    edit c = .ok events d ∧ edit' c = .ok events' d' ∧ d.rewiring = d'.rewiring ∧
      d.liveGates = c.liveGates ++ gates ∧ d'.liveGates = c.liveGates ++ gates' ∧
      Reflects p gates gates'
  refuses : ¬accepts → Refuses edit c ∧ Refuses edit' c

/-! ## The engines that emit CNOTs -/

variable {c : Circuit} {p : Placement}

theorem Cnot.Recipe.rewiring_placeOn_positive (r : Recipe) {d d' : Circuit}
    (h : d.rewiring = d'.rewiring) (p : Placement) :
    (r.placeOn d p).rewiring = (r.placeOn d' p.positive).rewiring := by
  unfold placeOn
  cases r.order with
  | none => exact h
  | some order =>
    show composeOrder d.rewiring p order = composeOrder d'.rewiring p.positive order
    rw [h, Placement.composeOrder_positive]

theorem Cnot.Recipe.liveGates_placeOn (r : Recipe) (d : Circuit) (p : Placement) :
    (r.placeOn d p).liveGates = d.liveGates ++ (r.gates.map PhaseStep.cnot).map (·.toGate p) := by
  rw [List.map_map]
  exact Circuit.foldl_place_liveGates _ _

theorem Cnot.mirrors {m : BinaryMatrix} {o : CnotOptions} (hm : m.WellFormed)
    (hrewiring : IsRangePermutation c.wireCount c.rewiring) :
    Mirrors c p (Acceptable c p m o) (edit p m o) (edit p.positive m o) where
  appends h := by
    obtain ⟨r, events, hr, hedit⟩ := exists_edit_eq_ok hm h.invertible
      (CnotOptions.isUsable_iff.mpr h.partition_usable)
    have hsteps : ∀ s ∈ r.gates.map PhaseStep.cnot, s.WellFormed m.size :=
      List.forall_mem_map.mpr hr.makes.wellFormed
    exact ⟨events, events, _, _, _, _, hedit c p h.fits hrewiring,
      hedit c p.positive (Placement.fits_positive_iff.mpr h.fits) hrewiring,
      r.rewiring_placeOn_positive rfl p, r.liveGates_placeOn c p, r.liveGates_placeOn c p.positive,
      PhaseStep.reflects h.fits hsteps⟩
  refuses h := by
    refine ⟨edit_refuses h, edit_refuses fun h' => h ?_⟩
    exact ⟨Placement.fits_positive_iff.mp h'.fits, h'.invertible, h'.partition_usable⟩

theorem ParityNetwork.mirrors {terms : PhasePolynomial} {o : ParityOptions}
    (htransform : ∀ m ∈ o.transform, m.WellFormed)
    (hrewiring : IsRangePermutation c.wireCount c.rewiring) :
    Mirrors c p (Acceptable c p terms o) (edit p terms o) (edit p.positive terms o) where
  appends h := by
    have hsolvable := h.solvable htransform
    obtain ⟨r, hr, hedit⟩ := exists_edit_eq_ok hsolvable
    obtain ⟨events, hevents⟩ := hedit c p h.fits hrewiring
    obtain ⟨events', hevents'⟩ :=
      hedit c p.positive (Placement.fits_positive_iff.mpr h.fits) hrewiring
    -- The walk and the CNOTs that undo it are one list of steps.
    have hsteps : ∀ s ∈ walk p.length terms ++ r.gates.map PhaseStep.cnot, s.WellFormed p.length :=
      List.forall_mem_append.mpr ⟨hsolvable.wellFormed_walk, List.forall_mem_map.mpr hr.wellFormed⟩
    have hlive (q : Placement) : (r.placeOn (((walk p.length terms).map (·.toGate q)).foldl
        Circuit.place c) q).liveGates =
        c.liveGates ++ (walk p.length terms ++ r.gates.map PhaseStep.cnot).map (·.toGate q) := by
      rw [r.liveGates_placeOn, Circuit.foldl_place_liveGates, List.append_assoc, List.map_append]
    exact ⟨events, events', _, _, _, _, hevents, hevents',
      r.rewiring_placeOn_positive (by simp) p, hlive p, hlive p.positive,
      PhaseStep.reflects h.fits hsteps⟩
  refuses h := by
    refine ⟨edit_refuses h, edit_refuses fun h' => h ?_⟩
    obtain ⟨hfits, hwidth, hmasks, htransform, husable⟩ := h'
    rw [Placement.length_positive] at hfits hwidth hmasks htransform
    exact ⟨Placement.fits_positive_iff.mp hfits, hwidth, hmasks, htransform, husable⟩

theorem Staircase.mirrors {terms : PhasePolynomial} (order : WalkOrder) :
    Mirrors c p (Acceptable c p terms) (edit p terms order) (edit p.positive terms order) where
  appends h := by
    have hsolvable : Solvable p.length terms := ⟨h.width_le, h.masks_fit⟩
    obtain ⟨events, hedit⟩ := edit_eq_ok order hsolvable h.fits
    obtain ⟨events', hedit'⟩ :=
      edit_eq_ok order hsolvable (Placement.fits_positive_iff.mpr h.fits)
    exact ⟨events, events', _, _, _, _, hedit, hedit', by simp,
      Circuit.foldl_place_liveGates _ _, Circuit.foldl_place_liveGates _ _,
      PhaseStep.reflects h.fits (wellFormed_walk order p.length terms)⟩
  refuses h := by
    refine ⟨edit_refuses order h, edit_refuses order fun h' => h ?_⟩
    obtain ⟨hfits, hwidth, hmasks⟩ := h'
    rw [Placement.length_positive] at hfits hwidth hmasks
    exact ⟨Placement.fits_positive_iff.mp hfits, hwidth, hmasks⟩

/-! ## Cascades -/

theorem Placement.map_positive_select (p : Placement) (s : Nat) :
    (p.select s).map Wire.positive = p.select s := by
  rw [select_eq_map, List.map_map]
  rfl

theorem Toffoli.positive_toGate (p : Placement) (g : Toffoli) :
    (g.toGate p).positive = g.toGate p := by
  show Gate.mcx ((p.select _).map Wire.positive) ((p.select _).map Wire.positive) = _
  rw [Placement.map_positive_select, Placement.map_positive_select]
  rfl

theorem Toffoli.toGate_positive (p : Placement) (g : Toffoli) :
    g.toGate p.positive = g.toGate p := by
  unfold toGate
  rw [Placement.select_positive, Placement.select_positive]

/-- A cascade is the same on the positive version of a placement. -/
theorem Cascade.edit_positive {f : ReversibleFunction} (hp : p.Fits c f.width)
    (direction : Direction) :
    edit p.positive f.width direction ⟨c, f.table⟩ = edit p f.width direction ⟨c, f.table⟩ := by
  have hgates : (reduce direction f.table).gates.map (·.toGate p.positive) =
      (reduce direction f.table).gates.map (·.toGate p) :=
    List.map_congr_left fun g _ => g.toGate_positive p
  unfold edit
  rw [get_bind, get_bind, lift_bind_ok (Placement.check_eq_ok_iff.mpr hp),
    lift_bind_ok (Placement.check_eq_ok_iff.mpr (Placement.fits_positive_iff.mpr hp))]
  show (set _ >>= fun _ => Workspace.onCircuit (Edit.emitAll (List.map _ _)) >>= _) _ = _
  simp only [hgates]

theorem Cascade.edit_appends_positive {f : ReversibleFunction} (hp : p.Fits c f.width)
    (direction : Direction) :
    ∃ events d table gates, edit p f.width direction ⟨c, f.table⟩ = .ok events ⟨d, table⟩ ∧
      edit p.positive f.width direction ⟨c, f.table⟩ = .ok events ⟨d, table⟩ ∧
      d.liveGates = c.liveGates ++ gates ∧ ∀ g ∈ gates, g.positive = g := by
  obtain ⟨events, hedit⟩ := edit_eq_ok hp direction
  refine ⟨events, _, _, _, hedit, (edit_positive hp direction).trans hedit,
    Circuit.foldl_place_liveGates _ _, ?_⟩
  exact List.forall_mem_map.mpr fun g _ => g.positive_toGate p

/-! ## All engines -/

/-- **Polarities of a placement.** On the positive version of a placement a
cascade appends the same gates, and all their operands are positive. The other
engines append the same gates up to polarity: with the same controls exactly
when no appended control is complemented, and then with the same action on
patterns and phases. In general the patterns differ by a flip of all
complemented wires before and after. An engine refuses both placements or
none. -/
theorem engines_polarity {c : Circuit} (hc : c.Reachable) (p : Placement) :
    (∀ (f : ReversibleFunction) direction,
      (p.Fits c f.width → ∃ events d table gates,
        Cascade.edit p f.width direction ⟨c, f.table⟩ = .ok events ⟨d, table⟩ ∧
        Cascade.edit p.positive f.width direction ⟨c, f.table⟩ = .ok events ⟨d, table⟩ ∧
        d.liveGates = c.liveGates ++ gates ∧ ∀ g ∈ gates, g.positive = g) ∧
      (¬p.Fits c f.width → Refuses (Cascade.edit p f.width direction) ⟨c, f.table⟩ ∧
        Refuses (Cascade.edit p.positive f.width direction) ⟨c, f.table⟩)) ∧
    (∀ m o, m.WellFormed →
      Mirrors c p (Cnot.Acceptable c p m o) (Cnot.edit p m o) (Cnot.edit p.positive m o)) ∧
    (∀ terms o, (∀ m ∈ o.transform, m.WellFormed) →
      Mirrors c p (ParityNetwork.Acceptable c p terms o)
        (ParityNetwork.edit p terms o) (ParityNetwork.edit p.positive terms o)) ∧
    ∀ terms order,
      Mirrors c p (Staircase.Acceptable c p terms)
        (Staircase.edit p terms order) (Staircase.edit p.positive terms order) := by
  have hrewiring := hc.sound.rewiring_perm
  refine ⟨fun f direction => ⟨fun hp => Cascade.edit_appends_positive hp direction, fun hp => ?_⟩,
    fun m o hm => Cnot.mirrors hm hrewiring,
    fun terms o htransform => ParityNetwork.mirrors htransform hrewiring,
    fun terms order => Staircase.mirrors order⟩
  exact ⟨Cascade.edit_refuses direction hp,
    Cascade.edit_refuses direction (mt Placement.fits_positive_iff.mp hp)⟩

/-- Two of three qubits, the first entry complemented. A staircase is accepted,
a CNOT circuit for a singular matrix is not. -/
theorem engines_polarity_two_of_three :
    let c := Circuit.ofHistory [.addWire .qubit, .addNamedWire .qubit "b", .addWire .qubit,
      .append (.cx (.qubit 0) (.qubit 2)), .setMarked 6 true, .rewire [1, 2, 0]]
    let p : Placement := [(Wire.qubit 2).complement, .qubit 0]
    let terms : PhasePolynomial := ⟨[(1, .turn 1), (3, .radians 0.5)], by decide⟩
    c.Reachable ∧ p.complemented = 4 ∧ Staircase.Acceptable c p terms ∧
      (∃ events events' d d' gates gates', Staircase.edit p terms .gray c = .ok events d ∧
        Staircase.edit p.positive terms .gray c = .ok events' d' ∧ d.rewiring = d'.rewiring ∧
        d.liveGates = c.liveGates ++ gates ∧ d'.liveGates = c.liveGates ++ gates' ∧
        Reflects p gates gates') ∧
      Refuses (Cnot.edit p ⟨[3, 3]⟩ .default) c ∧
      Refuses (Cnot.edit p.positive ⟨[3, 3]⟩ .default) c := by
  intro c p terms
  have hc : c.Reachable := ⟨_, rfl⟩
  have haccepts : Staircase.Acceptable c p terms :=
    ⟨Placement.check_eq_ok_iff.mp rfl, by decide, by decide⟩
  obtain ⟨-, hcnot, -, hstaircase⟩ := engines_polarity hc p
  refine ⟨hc, rfl, haccepts, (hstaircase terms .gray).appends haccepts, ?_⟩
  refine (hcnot ⟨[3, 3]⟩ .default ⟨by decide, by decide⟩).refuses fun h => ?_
  exact absurd (isInvertible_iff_isUnit.mpr h.invertible) (by decide +kernel)

/-- A placement with a complemented entry that is accepted, and on which the
engine for CNOT circuits does not do the same as on its positive version. -/
theorem Cnot.edit_complemented :
    let c := Circuit.ofHistory [.addWire .qubit, .addWire .qubit]
    let p : Placement := [(Wire.qubit 0).complement, .qubit 1]
    c.Reachable ∧ p.check c 2 = .ok () ∧ ∃ events d d',
      Cnot.edit p ⟨[1, 3]⟩ .default c = .ok events d ∧
      Cnot.edit p.positive ⟨[1, 3]⟩ .default c = .ok events d' ∧
      d.liveGates = [.cx (Wire.qubit 0).complement (.qubit 1)] ∧
      d'.liveGates = [.cx (.qubit 0) (.qubit 1)] ∧
      d.simulate 0 = .ok 2 ∧ d'.simulate 0 = .ok 0 := by
  intro c p
  exact ⟨⟨_, rfl⟩, rfl, _, c.place (.cx (Wire.qubit 0).complement (.qubit 1)),
    c.place (.cx (.qubit 0) (.qubit 1)), rfl, rfl, rfl, rfl, rfl, rfl⟩

end CircuitSynthesis
