import CircuitSynthesis.BinaryMatrix.History
import CircuitSynthesis.Proofs.BinaryMatrix.Inverse
import CircuitSynthesis.Proofs.Cnot.RoundTrip

/-!
# Matrices are well formed over whole histories

Rows that are given from outside, scattered or read off a circuit are checked.
Everything else builds or changes a matrix without another look at it, so each
operation has to keep the rows within the size by itself: sums of rows that fit
do, rows that change places do, and a single entry does where it is let in. A
change in place that fails has written nothing yet. Hence every matrix of every
history could be given by its rows again, and a request that is not granted
leaves all of them as they were (`ofHistory_wellFormed`).
-/

namespace CircuitSynthesis

variable {m m' : BinaryMatrix}

/-! ## One operation -/

namespace BinaryMatrix

theorem wellFormed_identity {n : Nat} (h : identity n = .ok m) : m.WellFormed := by
  unfold identity admitQubits at h
  split at h
  · next hn =>
    cases h
    exact wellFormed_of_isSquare (isSquare_units n) hn
  · cases h

/-- An entry is set exactly where the matrix has one. -/
theorem guarded_set (m : BinaryMatrix) (i j : Nat) (value : Bool) :
    Guarded (set i j value) m (i < m.size ∧ j < m.size) () (m.withEntry i j value) := by
  unfold set
  by_cases hin : i < m.size ∧ j < m.size
  · refine .inl ⟨hin, ?_⟩
    rw [get_bind, if_pos hin]
    rfl
  · refine .inr ⟨hin, .rowOutOfRange i m.size, ?_⟩
    rw [get_bind, if_neg hin]
    rfl

theorem WellFormed.withEntry (hm : m.WellFormed) (i : Nat) {j : Nat} (hj : j < m.size)
    (value : Bool) : (m.withEntry i j value).WellFormed := by
  have hold : m.row i < 2 ^ m.size := hm.isSquare.getD_lt i
  have hbit : 2 ^ j < 2 ^ m.size := Nat.pow_lt_pow_right (by omega) hj
  have hcleared : m.row i ^^^ (m.row i &&& 2 ^ j) < 2 ^ m.size :=
    Nat.xor_lt_two_pow hold (Nat.and_lt_two_pow _ hbit)
  refine wellFormed_of_isSquare ⟨List.length_set, fun row hrow => ?_⟩ hm.size_le
  rcases List.mem_or_eq_of_mem_set hrow with hmem | rfl
  · exact hm.row_lt row hmem
  · split
    · exact Nat.or_lt_two_pow hcleared hbit
    · exact hcleared

theorem keeps_set (i j : Nat) (value : Bool) : Keeps WellFormed (set i j value) :=
  fun m hm => (guarded_set m i j value).of_stateAfter hm fun hin => hm.withEntry i hin.2 value

theorem WellFormed.addRow? (hm : m.WellFormed) {dst src : Nat}
    (h : m.addRow? dst src = some m') : m'.WellFormed := by
  unfold BinaryMatrix.addRow? at h
  split at h <;> cases h
  exact wellFormed_of_isSquare (hm.isSquare.addRow dst src) hm.size_le

theorem WellFormed.swapRows? (hm : m.WellFormed) {a b : Nat} (h : m.swapRows? a b = some m') :
    m'.WellFormed := by
  unfold BinaryMatrix.swapRows? at h
  split at h <;> cases h
  exact wellFormed_of_isSquare (hm.isSquare.swapEntries a b) hm.size_le

theorem gatherRows_eq_ok_iff {order : List Nat} :
    m.gatherRows order = .ok m' ↔
      IsRangePermutation m.size order ∧ m' = ⟨order.map m.row⟩ := by
  constructor
  · intro h
    unfold gatherRows at h
    cases hchecked : admitOrder order m.size with
    | error e =>
      rw [hchecked] at h
      cases h
    | ok u =>
      rw [hchecked] at h
      cases h
      exact ⟨admitOrder_eq_ok_iff.mp hchecked, rfl⟩
  · rintro ⟨horder, rfl⟩
    exact gatherRows_eq_ok horder

theorem WellFormed.gatherRows (hm : m.WellFormed) {order : List Nat}
    (h : m.gatherRows order = .ok m') : m'.WellFormed := by
  obtain ⟨horder, rfl⟩ := gatherRows_eq_ok_iff.mp h
  exact wellFormed_of_isSquare (isSquare_gathered hm.isSquare horder) hm.size_le

theorem WellFormed.transpose (hm : m.WellFormed) : m.transpose.WellFormed :=
  wellFormed_of_isSquare (isSquare_transpose rfl) hm.size_le

theorem WellFormed.inverse (hm : m.WellFormed) (h : m.inverse = .ok m') : m'.WellFormed :=
  wellFormed_of_isSquare ((inverse_eq_ok_iff hm).mp h).1 hm.size_le

/-- All matrices are well formed. -/
def AllWellFormed (matrices : List BinaryMatrix) : Prop := ∀ m ∈ matrices, m.WellFormed

theorem AllWellFormed.concat {matrices : List BinaryMatrix} (h : AllWellFormed matrices)
    (hm : m.WellFormed) : AllWellFormed (matrices ++ [m]) := by
  intro m' hm'
  rcases List.mem_append.mp hm' with hold | hlast
  · exact h m' hold
  · rw [List.mem_singleton.mp hlast]
    exact hm

theorem AllWellFormed.set {matrices : List BinaryMatrix} (h : AllWellFormed matrices) (k : Nat)
    (hm : m.WellFormed) : AllWellFormed (matrices.set k m) := by
  intro m' hm'
  rcases List.mem_or_eq_of_mem_set hm' with hold | rfl
  · exact h m' hold
  · exact hm

end BinaryMatrix

/-! ## Work on the matrices at hand -/

namespace MatrixRequest

open BinaryMatrix

variable {matrices : List BinaryMatrix} {k : Nat} {α : Type}

theorem held_bind (h : matrices[k]? = some m) (f : BinaryMatrix → Work α) :
    (held k >>= f) matrices = f m matrices := by
  have hheld : held k matrices = .ok m matrices := by
    unfold held
    rw [get_bind, h]
    rfl
  exact bind_ok hheld

theorem held_bind_of_none (h : matrices[k]? = none) (f : BinaryMatrix → Work α) :
    (held k >>= f) matrices = .error .noSuchMatrix matrices := by
  have hheld : held k matrices = .error .noSuchMatrix matrices := by
    unfold held
    rw [get_bind, h]
    rfl
  show EStateM.bind (held k) f matrices = _
  rw [EStateM.bind, hheld]

/-! ### What failures leave behind -/

theorem failsClean_held_bind {f : BinaryMatrix → Work α}
    (hf : ∀ m, matrices[k]? = some m → FailsClean (f m) matrices) :
    FailsClean (held k >>= f) matrices := by
  intro e after h
  cases hk : matrices[k]? with
  | none =>
    rw [held_bind_of_none hk] at h
    cases h
    rfl
  | some m =>
    rw [held_bind hk] at h
    exact hf m hk e after h

theorem failsClean_enter (r : Except SynthesisError BinaryMatrix) (matrices : List BinaryMatrix) :
    FailsClean (enter r) matrices :=
  failsClean_lift_bind fun _ => failsClean_modify _ _

theorem failsClean_replace (k : Nat) (r : Option BinaryMatrix) (matrices : List BinaryMatrix) :
    FailsClean (replace k r) matrices := by
  cases r with
  | some m => exact failsClean_modify _ _
  | none => exact failsClean_throw _ _

/-- What is left of the matrix is written back, but that is the matrix itself. -/
theorem failsClean_change {edit : EStateM SynthesisError BinaryMatrix Unit}
    (hedit : ∀ m, FailsClean edit m) : FailsClean (change k edit) matrices := by
  refine failsClean_held_bind fun m hk e after h => ?_
  cases hrun : edit m with
  | ok u t =>
    rw [hrun] at h
    cases h
  | error cause t =>
    obtain rfl := hedit m cause t hrun
    rw [hrun] at h
    cases h
    obtain ⟨hlt, rfl⟩ := List.getElem?_eq_some_iff.mp hk
    exact List.set_getElem_self hlt

/-- No request that fails has changed anything. -/
theorem failsClean_run (request : MatrixRequest) (matrices : List BinaryMatrix) :
    FailsClean request.run matrices := by
  cases request with
  | identity n => exact failsClean_enter _ _
  | ofRows rows => exact failsClean_enter _ _
  | linearPart c => exact failsClean_enter _ _
  | set k i j value => exact failsClean_change fun m => (guarded_set m i j value).atomic.unchanged
  | addRow k dst src => exact failsClean_held_bind fun m _ => failsClean_replace _ _ _
  | swapRows k a b => exact failsClean_held_bind fun m _ => failsClean_replace _ _ _
  | gatherRows k order => exact failsClean_held_bind fun m _ => failsClean_enter _ _
  | scatterRows k order => exact failsClean_held_bind fun m _ => failsClean_enter _ _
  | transpose k => exact failsClean_held_bind fun m _ => failsClean_enter _ _
  | mul k l =>
    exact failsClean_held_bind fun a _ => failsClean_held_bind fun b _ => failsClean_enter _ _
  | inverse k => exact failsClean_held_bind fun m _ => failsClean_enter _ _

/-! ### What is kept -/

theorem keeps_held_bind {f : BinaryMatrix → Work α}
    (hf : ∀ m, m.WellFormed → Keeps AllWellFormed (f m)) :
    Keeps AllWellFormed (held k >>= f) := by
  intro matrices h
  unfold stateAfter
  cases hk : matrices[k]? with
  | none =>
    rw [held_bind_of_none hk]
    exact h
  | some m =>
    rw [held_bind hk]
    exact hf m (h m (List.mem_of_getElem? hk)) matrices h

theorem keeps_enter {r : Except SynthesisError BinaryMatrix}
    (hr : ∀ m, r = .ok m → m.WellFormed) : Keeps AllWellFormed (enter r) := by
  intro matrices h
  cases r with
  | ok m => exact h.concat (hr m rfl)
  | error e => exact h

theorem keeps_replace {r : Option BinaryMatrix} (hr : ∀ m, r = some m → m.WellFormed) :
    Keeps AllWellFormed (replace k r) := by
  intro matrices h
  cases r with
  | some m => exact h.set k (hr m rfl)
  | none => exact h

theorem keeps_change {edit : EStateM SynthesisError BinaryMatrix Unit}
    (hedit : Keeps WellFormed edit) : Keeps AllWellFormed (change k edit) := by
  refine keeps_held_bind fun m hm matrices h => ?_
  have hleft := hedit m hm
  unfold stateAfter at hleft
  cases hrun : edit m with
  | ok u t =>
    rw [hrun] at hleft
    exact h.set k hleft
  | error e t =>
    rw [hrun] at hleft
    exact h.set k hleft

/-- A request keeps all matrices well formed, granted or not. -/
theorem keeps_run (request : MatrixRequest) : Keeps AllWellFormed request.run := by
  cases request with
  | identity n => exact keeps_enter fun m => wellFormed_identity
  | ofRows rows => exact keeps_enter fun m h => (ofRows_eq_ok_iff.mp h).2
  | linearPart c => exact keeps_enter fun m => Circuit.wellFormed_linearPart
  | set k i j value => exact keeps_change (keeps_set i j value)
  | addRow k dst src => exact keeps_held_bind fun m hm => keeps_replace fun m' => hm.addRow?
  | swapRows k a b => exact keeps_held_bind fun m hm => keeps_replace fun m' => hm.swapRows?
  | gatherRows k order => exact keeps_held_bind fun m hm => keeps_enter fun m' => hm.gatherRows
  | scatterRows k order =>
    exact keeps_held_bind fun m _ => keeps_enter fun m' => wellFormed_of_scatterRows
  | transpose k =>
    refine keeps_held_bind fun m hm => keeps_enter ?_
    rintro _ ⟨⟩
    exact hm.transpose
  | mul k l =>
    exact keeps_held_bind fun a _ => keeps_held_bind fun b hb => keeps_enter fun m' => hb.mul
  | inverse k => exact keeps_held_bind fun m hm => keeps_enter fun m' => hm.inverse

/-! ### When a request fails -/

theorem enter_fails_iff {r : Except SynthesisError BinaryMatrix} :
    (∃ e after, enter r matrices = .error e after) ↔ ∃ e, r = .error e := by
  cases r with
  | ok m => exact ⟨nofun, nofun⟩
  | error e => exact ⟨fun _ => ⟨e, rfl⟩, fun _ => ⟨_, _, rfl⟩⟩

theorem change_fails_iff {edit : EStateM SynthesisError BinaryMatrix Unit}
    (hk : matrices[k]? = some m) :
    (∃ e after, change k edit matrices = .error e after) ↔ ∃ e t, edit m = .error e t := by
  unfold change
  rw [held_bind hk]
  cases edit m with
  | ok u t => exact ⟨nofun, nofun⟩
  | error e t => exact ⟨fun _ => ⟨e, t, rfl⟩, fun _ => ⟨_, _, rfl⟩⟩

end MatrixRequest

namespace BinaryMatrix

open MatrixRequest

/-! ## Whole histories -/

theorem allWellFormed_ofHistory (requests : List MatrixRequest) :
    AllWellFormed (ofHistory requests) := by
  induction requests using List.reverseRecOn with
  | nil => exact nofun
  | append_singleton requests request ih =>
    rw [ofHistory, List.foldl_append]
    exact keeps_run request _ ih

theorem WellFormed.inverse_fails_iff (hm : m.WellFormed) :
    (∃ e, m.inverse = .error e) ↔ m.isInvertible = false := by
  rw [← Bool.not_eq_true, isInvertible_iff_isUnit]
  constructor
  · rintro ⟨e, he⟩ hunit
    obtain ⟨i, hi, -⟩ := exists_inverse_of_isUnit hm hunit
    rw [he] at hi
    cases hi
  · exact fun hunit => ⟨_, inverse_eq_singular hunit⟩

theorem gatherRows_fails_iff {order : List Nat} :
    (∃ e, m.gatherRows order = .error e) ↔ ¬IsRangePermutation m.size order := by
  cases h : m.gatherRows order with
  | ok m' => simp [(gatherRows_eq_ok_iff.mp h).1]
  | error e =>
    refine ⟨fun _ horder => ?_, fun _ => ⟨e, rfl⟩⟩
    rw [gatherRows_eq_ok horder] at h
    cases h

/-- **Well formed throughout.** Whatever was asked for, granted or not, every
matrix at hand has at most 64 rows and no bit beyond its size, so its rows are
accepted as they stand. A request that fails leaves every matrix as it was. It
fails for an entry outside the matrix, for factors of two sizes, for a matrix
that is not invertible and for an order that is no permutation of the rows, and
only then. -/
theorem ofHistory_wellFormed (requests : List MatrixRequest) :
    (∀ m ∈ ofHistory requests, m.size ≤ 64 ∧
      (∀ row ∈ m.rows, ∀ j, m.size ≤ j → row.testBit j = false) ∧ ofRows m.rows = .ok m) ∧
    (∀ request e after, run request (ofHistory requests) = .error e after →
      after = ofHistory requests ∧
        perform (ofHistory requests) request = ofHistory requests) ∧
    ∀ k m, (ofHistory requests)[k]? = some m →
      (∀ i j value,
        (∃ e after, run (.set k i j value) (ofHistory requests) = .error e after) ↔
          ¬(i < m.size ∧ j < m.size)) ∧
      (∀ l m', (ofHistory requests)[l]? = some m' →
        ((∃ e after, run (.mul k l) (ofHistory requests) = .error e after) ↔
          m.size ≠ m'.size)) ∧
      ((∃ e after, run (.inverse k) (ofHistory requests) = .error e after) ↔
        m.isInvertible = false) ∧
      ∀ order, (∃ e after, run (.gatherRows k order) (ofHistory requests) = .error e after) ↔
        ¬IsRangePermutation m.size order := by
  have hheld := allWellFormed_ofHistory requests
  refine ⟨fun m hm => ?_, fun request e after herror => ?_, fun k m hk => ⟨?_, ?_, ?_, ?_⟩⟩
  · have hwf := hheld m hm
    exact ⟨hwf.size_le, fun row hrow j hj => Bits.testBit_eq_false_of_le (hwf.row_lt row hrow) hj,
      ofRows_eq_ok_iff.mpr ⟨rfl, hwf⟩⟩
  · have hafter := failsClean_run request _ e after herror
    refine ⟨hafter, ?_⟩
    rw [perform, stateAfter, herror]
    exact hafter
  · intro i j value
    rw [run, change_fails_iff hk, (guarded_set m i j value).atomic.fails_iff]
  · intro l m' hl
    rw [run, held_bind hk, held_bind hl, enter_fails_iff]
    simp [mul_eq_error_iff]
  · rw [run, held_bind hk, enter_fails_iff,
      (hheld m (List.mem_of_getElem? hk)).inverse_fails_iff]
  · intro order
    rw [run, held_bind hk, enter_fails_iff, gatherRows_fails_iff]

/-- A matrix of full width with a one in its last corner, and its transpose. The
rows that were given last are too wide, and so is the entry asked for now. -/
theorem ofHistory_wellFormed_full_width :
    let requests : List MatrixRequest :=
      [.identity 64, .set 0 0 63 true, .transpose 0, .ofRows [4, 1]]
    ∃ m, (ofHistory requests)[1]? = some m ∧ m.row 63 = 2 ^ 63 + 1 ∧ ofRows m.rows = .ok m ∧
      ∃ e, run (.set 1 63 64 true) (ofHistory requests) = .error e (ofHistory requests) ∧
        perform (ofHistory requests) (.set 1 63 64 true) = ofHistory requests := by
  intro requests
  have hrow : (ofHistory requests)[1]?.map (·.row 63) = some (2 ^ 63 + 1) := by decide +kernel
  obtain ⟨m, hm, hlast⟩ := Option.map_eq_some_iff.mp hrow
  obtain ⟨haccepted, hunchanged, hfails⟩ := ofHistory_wellFormed requests
  obtain ⟨hsize, -, hrows⟩ := haccepted m (List.mem_of_getElem? hm)
  obtain ⟨e, after, he⟩ :=
    ((hfails 1 m hm).1 63 64 true).mpr fun hin => Nat.not_lt_of_le hsize hin.2
  obtain ⟨rfl, hperform⟩ := hunchanged _ e after he
  exact ⟨m, hm, hlast, hrows, e, he, hperform⟩

end BinaryMatrix

end CircuitSynthesis
