import CircuitSynthesis.Proofs.Cascade.RoundTrip
import CircuitSynthesis.Proofs.History
import CircuitSynthesis.Proofs.ParityNetwork.RoundTrip
import CircuitSynthesis.Proofs.Staircase.RoundTrip

/-!
# Engines accept or leave everything as it was

An engine appends gate by gate, and each of these steps could fail. It does
not: once the checks at the start have passed, all that follows succeeds, and
a check that fails comes before anything was changed. So each engine succeeds
exactly on the arguments its checks let pass, and a failure leaves circuit and
table alone (`engines_atomic`).
-/

namespace CircuitSynthesis

/-! ## What the checks let pass -/

namespace Cnot

/-- As many distinct qubits of the circuit as the matrix has rows, an
invertible matrix, and a partition size where one is used. -/
structure Acceptable (c : Circuit) (p : Placement) (m : BinaryMatrix) (o : CnotOptions) :
    Prop where
  fits : p.Fits c m.size
  invertible : IsUnit (rowMatrix m.size m.rows)
  partition_usable : o.searchPartition = true ∨ 1 ≤ o.partitionSize

theorem of_recipe_eq_ok {m : BinaryMatrix} {o : CnotOptions} {r : Recipe}
    (h : recipe m o = .ok r) : o.isUsable = true ∧ m.isInvertible = true := by
  unfold recipe at h
  cases husable : o.validate with
  | error e =>
    rw [husable] at h
    cases h
  | ok u =>
    refine ⟨CnotOptions.validate_eq_ok_iff.mp husable, ?_⟩
    cases hinv : m.isInvertible with
    | true => rfl
    | false =>
      rw [husable, hinv] at h
      cases h

theorem edit_refuses {c : Circuit} {p : Placement} {m : BinaryMatrix} {o : CnotOptions}
    (h : ¬Acceptable c p m o) : Refuses (edit p m o) c := by
  refine refuses_get_bind (refuses_lift_bind fun _ hcheck => refuses_lift_bind fun r hrecipe => ?_)
  obtain ⟨husable, hinv⟩ := of_recipe_eq_ok hrecipe
  exact absurd ⟨Placement.check_eq_ok_iff.mp hcheck, isInvertible_iff_isUnit.mp hinv,
    CnotOptions.isUsable_iff.mp husable⟩ h

theorem edit_atomic {c : Circuit} {p : Placement} {m : BinaryMatrix} {o : CnotOptions}
    (hrewiring : IsRangePermutation c.wireCount c.rewiring) (hm : m.WellFormed) :
    Atomic (edit p m o) c (Acceptable c p m o) := by
  refine .intro (fun h => ?_) edit_refuses
  obtain ⟨r, events, -, hedit⟩ := edit_eq_ok h.fits hrewiring hm h.invertible
    (CnotOptions.isUsable_iff.mpr h.partition_usable)
  exact ⟨events, _, hedit⟩

end Cnot

namespace ParityNetwork

/-- Distinct qubits of the circuit, not too many of them; masks and, if one is
asked for, an invertible map on that many qubits; and a partition size where
one is used. -/
structure Acceptable (c : Circuit) (p : Placement) (terms : PhasePolynomial) (o : ParityOptions) :
    Prop where
  fits : p.Fits c p.length
  width_le : p.length ≤ 64
  masks_fit : ∀ mask ∈ terms.masks, mask ≠ 0 ∧ mask < 2 ^ p.length
  transform_invertible : ∀ m ∈ o.transform,
    m.size = p.length ∧ IsUnit (rowMatrix m.size m.rows)
  partition_usable : o.cnot.searchPartition = true ∨ 1 ≤ o.cnot.partitionSize

variable {c : Circuit} {p : Placement} {terms : PhasePolynomial} {o : ParityOptions}

theorem of_goal_eq_ok {n : Nat} {g : BinaryMatrix} (h : goal o n = .ok g) :
    ∀ m ∈ o.transform, m.size = n ∧ m.isInvertible = true := by
  rintro m hm
  unfold goal at h
  rw [hm] at h
  by_cases hsize : m.size = n
  · refine ⟨hsize, ?_⟩
    cases hinv : m.isInvertible with
    | true => rfl
    | false => simp [hsize, hinv, bind, Except.bind, pure, Except.pure] at h
  · simp [hsize, bind, Except.bind] at h

theorem Acceptable.solvable (h : Acceptable c p terms o)
    (htransform : ∀ m ∈ o.transform, m.WellFormed) : Solvable p.length terms o := by
  refine ⟨h.width_le, h.masks_fit, fun m hm => ?_, h.partition_usable⟩
  obtain ⟨hsize, hunit⟩ := h.transform_invertible m hm
  exact ⟨htransform m hm, hsize, isInvertible_iff_isUnit.mpr hunit⟩

theorem edit_refuses (h : ¬Acceptable c p terms o) : Refuses (edit p terms o) c := by
  refine refuses_lift_bind fun _ hwidth => refuses_get_bind <| refuses_lift_bind fun _ hcheck => ?_
  refine refuses_lift_bind fun _ hmasks => refuses_lift_bind fun g hgoal => ?_
  refine refuses_lift_bind fun _ husable => absurd ?_ h
  refine ⟨Placement.check_eq_ok_iff.mp hcheck, admitQubits_eq_ok_iff.mp hwidth,
    PhasePolynomial.validate_eq_ok_iff.mp hmasks, fun m hm => ?_,
    CnotOptions.isUsable_iff.mp (CnotOptions.validate_eq_ok_iff.mp husable)⟩
  obtain ⟨hsize, hinv⟩ := of_goal_eq_ok hgoal m hm
  exact ⟨hsize, isInvertible_iff_isUnit.mp hinv⟩

theorem edit_atomic (hrewiring : IsRangePermutation c.wireCount c.rewiring)
    (htransform : ∀ m ∈ o.transform, m.WellFormed) :
    Atomic (edit p terms o) c (Acceptable c p terms o) := by
  refine .intro (fun h => ?_) edit_refuses
  obtain ⟨r, events, hedit, -⟩ := edit_eq_ok (h.solvable htransform) h.fits hrewiring
  exact ⟨events, _, hedit⟩

end ParityNetwork

namespace Staircase

/-- Distinct qubits of the circuit, not too many of them, and masks on that
many qubits. -/
structure Acceptable (c : Circuit) (p : Placement) (terms : PhasePolynomial) : Prop where
  fits : p.Fits c p.length
  width_le : p.length ≤ 24
  masks_fit : ∀ mask ∈ terms.masks, mask ≠ 0 ∧ mask < 2 ^ p.length

variable {c : Circuit} {p : Placement} {terms : PhasePolynomial}

theorem edit_refuses (order : WalkOrder) (h : ¬Acceptable c p terms) :
    Refuses (edit p terms order) c := by
  refine refuses_lift_bind fun _ hwidth => refuses_get_bind <| refuses_lift_bind fun _ hcheck => ?_
  refine refuses_lift_bind fun _ hmasks => absurd ?_ h
  exact ⟨Placement.check_eq_ok_iff.mp hcheck, admitQubits_eq_ok_iff.mp hwidth,
    PhasePolynomial.validate_eq_ok_iff.mp hmasks⟩

theorem edit_atomic (order : WalkOrder) :
    Atomic (edit p terms order) c (Acceptable c p terms) := by
  refine .intro (fun h => ?_) (edit_refuses order)
  obtain ⟨events, hedit⟩ := edit_eq_ok order ⟨h.width_le, h.masks_fit⟩ h.fits
  exact ⟨events, _, hedit⟩

end Staircase

/-! ## All engines -/

theorem Cascade.edit_atomic {c : Circuit} {p : Placement} (f : ReversibleFunction)
    (direction : Direction) :
    Atomic (edit p f.width direction) ⟨c, f.table⟩ (p.Fits c f.width) := by
  refine .intro (fun h => ?_) (edit_refuses direction)
  obtain ⟨events, hedit⟩ := edit_eq_ok h direction
  exact ⟨events, _, hedit⟩

/-- **Atomicity.** On a reachable circuit each engine succeeds exactly on
acceptable arguments; when it fails, the circuit, and the table of a reversible
function, are what they were. -/
theorem engines_atomic {c : Circuit} (hc : c.Reachable) (p : Placement) :
    (∀ (f : ReversibleFunction) direction,
      Atomic (Cascade.edit p f.width direction) ⟨c, f.table⟩ (p.Fits c f.width)) ∧
    (∀ m o, m.WellFormed → Atomic (Cnot.edit p m o) c (Cnot.Acceptable c p m o)) ∧
    (∀ terms o, (∀ m ∈ o.transform, m.WellFormed) →
      Atomic (ParityNetwork.edit p terms o) c (ParityNetwork.Acceptable c p terms o)) ∧
    ∀ terms order,
      Atomic (Staircase.edit p terms order) c (Staircase.Acceptable c p terms) := by
  have hrewiring := hc.sound.rewiring_perm
  exact ⟨Cascade.edit_atomic, fun m o => Cnot.edit_atomic hrewiring,
    fun terms o => ParityNetwork.edit_atomic hrewiring, fun terms => Staircase.edit_atomic⟩

/-- Three qubits with a gate that is marked and a wire permutation that is not
its own inverse. A staircase on two of the qubits is accepted, a CNOT circuit
that names one of them twice is not. -/
theorem engines_atomic_two_of_three :
    let c := Circuit.ofHistory [.addWire .qubit, .addNamedWire .qubit "b", .addWire .qubit,
      .append (.cx (.qubit 0) (.qubit 2)), .setMarked 6 true, .rewire [1, 2, 0]]
    let terms : PhasePolynomial := ⟨[(1, .turn 1), (3, .radians 0.5)], by decide⟩
    c.Reachable ∧ c.isMarked 6 = true ∧
      (∃ events d, Staircase.edit [.qubit 2, .qubit 0] terms .gray c = .ok events d) ∧
      ∃ e, Cnot.edit [.qubit 1, .qubit 1] ⟨[1, 2]⟩ .default c = .error e c := by
  intro c terms
  have hc : c.Reachable := ⟨_, rfl⟩
  refine ⟨hc, rfl, ?_, ?_⟩
  · obtain ⟨-, -, -, hstaircase⟩ := engines_atomic hc [.qubit 2, .qubit 0]
    exact (hstaircase terms .gray).succeeds_iff.mpr
      ⟨Placement.check_eq_ok_iff.mp rfl, by decide, by decide⟩
  · obtain ⟨-, hcnot, -, -⟩ := engines_atomic hc [.qubit 1, .qubit 1]
    refine (hcnot ⟨[1, 2]⟩ .default ⟨by decide, by decide⟩).refuses fun h => ?_
    exact absurd h.fits.distinct (by decide)

end CircuitSynthesis
