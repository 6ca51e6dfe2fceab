import CircuitSynthesis.Exchange.Synthesis
import CircuitSynthesis.Proofs.Json.Record
import CircuitSynthesis.Proofs.RangePermutation

/-!
# Exchange without loss

Gates, phase polynomials, truth tables, matrices and settings are read back
from their JSON text as they were, with the polarity of every operand. Tables
and matrices are read from exactly the lists of numbers that their checked
constructors accept.
-/

namespace CircuitSynthesis

open Json (ReadsBack)

/-! ## Gates -/

theorem Wire.Kind.readsBack (k : Wire.Kind) :
    ReadsBack (fun k => .ofString k.exchangeName) (Json.plainChoice? Wire.Kind.names) k :=
  Json.readsBack_plainChoice Wire.Kind.exchangeName (by cases k <;> rfl)

theorem Polarity.readsBack (p : Polarity) :
    ReadsBack (fun p => .ofString p.exchangeName) (Json.plainChoice? Polarity.names) p :=
  Json.readsBack_plainChoice Polarity.exchangeName (by cases p <;> rfl)

theorem Wire.readsBack {w : Wire} (h : w.index ≤ Json.maxNat32) :
    ReadsBack Wire.toJson Wire.ofJson? w := by
  have hindex := Json.readsBack_ofNat h
  have hkind := Wire.Kind.readsBack w.kind
  have hpolarity := Polarity.readsBack w.polarity
  have hslots : w.toJson.slots false ["index", "kind", "polarity"] =
      some [.given (.ofNat w.index), .given (.ofString w.kind.exchangeName),
        .given (.ofString w.polarity.exchangeName)] :=
    Json.slots_ofFields false (by simp) (.refl _)
  constructor
  · apply Json.wellSpelled_ofFields
    simpa using ⟨hindex.spelled, hkind.spelled, hpolarity.spelled⟩
  · simp [Wire.ofJson?, hslots, hindex.read, hkind.read, hpolarity.read]

/-- Exact angles are exchanged by name. -/
theorem Angle.readsBack {a : Angle} (h : a.isExact = true) :
    ReadsBack Angle.toJson Angle.ofJson? a := by
  obtain ⟨k, rfl⟩ := Angle.isExact_iff.mp h
  have hfraction : ReadsBack (fun k => .ofString (Angle.fractionName k))
      (Json.plainChoice? Angle.fractionNames) k :=
    Json.readsBack_plainChoice Angle.fractionName (by revert k; decide)
  constructor
  · apply Json.wellSpelled_ofFields
    simpa using hfraction.spelled
  · simp [Angle.ofJson?, Angle.toJson, Json.choice?_ofChoice, hfraction.read]

theorem Operation.lookup_plainNames {op : Operation} (h : op.angle? = none) :
    Operation.plainNames.lookup op.exchangeName = some op := by
  cases op with
  | pauli axis => cases axis <;> rfl
  | rotation axis a => cases h
  | _ => rfl

theorem Operation.readsBack {op : Operation} (h : ∀ a ∈ op.angle?, a.isExact = true) :
    ReadsBack Operation.toJson Operation.ofJson? op := by
  cases hangle : op.angle? with
  | none =>
    have hname := Json.readsBack_plainChoice Operation.exchangeName
      (Operation.lookup_plainNames hangle)
    have hjson : op.toJson = .ofString op.exchangeName := by simp [Operation.toJson, hangle]
    constructor
    · rw [hjson]
      exact hname.spelled
    · rw [hjson, Operation.ofJson?, Json.choice?_ofString]
      simp [hname.read]
  | some a =>
    obtain ⟨axis, rfl⟩ : ∃ axis, op = .rotation axis a := by
      cases op <;> cases hangle
      exact ⟨_, rfl⟩
    have ha := Angle.readsBack (h a hangle)
    have hname : Operation.rotationNames.lookup (Operation.rotation axis a).exchangeName =
        some axis := by
      cases axis <;> rfl
    constructor
    · apply Json.wellSpelled_ofFields
      simpa using ha.spelled
    · show Operation.ofJson? (.ofChoice _ a.toJson) = _
      rw [Operation.ofJson?, Json.choice?_ofChoice]
      simp [hname, ha.read]

theorem Gate.readsBack {g : Gate} (hindex : ∀ w ∈ g.operands, w.index ≤ Json.maxNat32)
    (hexact : ∀ a ∈ g.operation.angle?, a.isExact = true) :
    ReadsBack Gate.toJson Gate.ofJson? g := by
  have hoperation := Operation.readsBack hexact
  have hcontrols : ReadsBack (Json.ofList Wire.toJson) (Json.list? Wire.ofJson?) g.controls :=
    Json.readsBack_ofList fun w hw => Wire.readsBack (hindex w (List.mem_append_left _ hw))
  have htargets : ReadsBack (Json.ofList Wire.toJson) (Json.list? Wire.ofJson?) g.targets :=
    Json.readsBack_ofList fun w hw => Wire.readsBack (hindex w (List.mem_append_right _ hw))
  have hslots : g.toJson.slots false ["kind", "controls", "targets"] =
      some [.given g.operation.toJson, .given (.ofList Wire.toJson g.controls),
        .given (.ofList Wire.toJson g.targets)] :=
    Json.slots_ofFields false (by simp) (.refl _)
  constructor
  · apply Json.wellSpelled_ofFields
    simpa using ⟨hoperation.spelled, hcontrols.spelled, htargets.spelled⟩
  · simp [Gate.ofJson?, hslots, hoperation.read, hcontrols.read, htargets.read]

/-! ## Problems -/

theorem toOption_eq_some_iff {ε α : Type} {e : Except ε α} {a : α} :
    e.toOption = some a ↔ e = .ok a := by
  cases e <;> simp [Except.toOption]

namespace ReversibleFunction

variable {f : ReversibleFunction} {values : List Nat}

theorem ofJson?_ofList (h : ∀ v ∈ values, v ≤ Json.maxNat32) :
    ofJson? (.ofList .ofNat values) = some f ↔ ofTable values.toArray = .ok f := by
  unfold ofJson?
  rw [(Json.readsBack_ofList_ofNat h).read]
  exact toOption_eq_some_iff

theorem le_maxNat32_of_mem_table (f : ReversibleFunction) {v : Nat} (hv : v ∈ f.table.toList) :
    v ≤ Json.maxNat32 := by
  have hlt : v < 2 ^ f.width := f.isPermutation.lt v hv
  have hpow : 2 ^ f.width ≤ 2 ^ 24 := Nat.pow_le_pow_right (by decide) f.width_le
  have hmax : 2 ^ 24 ≤ Json.maxNat32 := by decide
  omega

theorem readsBack (f : ReversibleFunction) : ReadsBack toJson ofJson? f := by
  have hle : ∀ v ∈ f.table.toList, v ≤ Json.maxNat32 := fun _ => f.le_maxNat32_of_mem_table
  exact ⟨(Json.readsBack_ofList_ofNat hle).spelled,
    (ofJson?_ofList hle).mpr (ofTable_eq_ok_iff.mpr rfl)⟩

/-- A table has only one document. -/
theorem ofJson?_eq_some_iff {j : Json} : ofJson? j = some f ↔ j = f.toJson := by
  constructor
  · intro h
    obtain ⟨values, hvalues, htable⟩ := Option.bind_eq_some_iff.mp h
    obtain ⟨rfl, -⟩ := Json.list?_natUpTo?_eq_some_iff.mp hvalues
    rw [toJson, ofTable_eq_ok_iff.mp (toOption_eq_some_iff.mp htable)]
  · rintro rfl
    exact f.readsBack.read

end ReversibleFunction

namespace BinaryMatrix

variable {m : BinaryMatrix} {rows : List Nat}

theorem ofJson?_ofList (h : ∀ row ∈ rows, row ≤ Json.maxNat64) :
    ofJson? (.ofList .ofNat rows) = some m ↔ ofRows rows = .ok m := by
  unfold ofJson?
  rw [(Json.readsBack_ofList_ofNat h).read]
  exact toOption_eq_some_iff

theorem WellFormed.le_maxNat64 (hm : m.WellFormed) {row : Nat} (hrow : row ∈ m.rows) :
    row ≤ Json.maxNat64 := by
  have hlt := hm.row_lt row hrow
  have hpow : 2 ^ m.size ≤ 2 ^ 64 := Nat.pow_le_pow_right (by decide) hm.size_le
  have hmax : 2 ^ 64 = Json.maxNat64 + 1 := by decide
  omega

theorem readsBack (hm : m.WellFormed) : ReadsBack toJson ofJson? m := by
  have hle : ∀ row ∈ m.rows, row ≤ Json.maxNat64 := fun _ => hm.le_maxNat64
  exact ⟨(Json.readsBack_ofList_ofNat hle).spelled,
    (ofJson?_ofList hle).mpr (ofRows_eq_ok_iff.mpr ⟨rfl, hm⟩)⟩

/-- A matrix is read only from its document, and only if it is well formed. -/
theorem ofJson?_eq_some_iff {j : Json} : ofJson? j = some m ↔ j = m.toJson ∧ m.WellFormed := by
  constructor
  · intro h
    obtain ⟨rows, hrows, haccepted⟩ := Option.bind_eq_some_iff.mp h
    obtain ⟨rfl, -⟩ := Json.list?_natUpTo?_eq_some_iff.mp hrows
    obtain ⟨rfl, hm⟩ := ofRows_eq_ok_iff.mp (toOption_eq_some_iff.mp haccepted)
    exact ⟨rfl, hm⟩
  · rintro ⟨rfl, hm⟩
    exact (readsBack hm).read

end BinaryMatrix

namespace PhasePolynomial

/-- A mask above all others goes to the end. -/
theorem insertWith_of_forall_lt {combine : Angle → Angle → Angle} {mask : Nat} {angle : Angle}
    {terms : List (Nat × Angle)} (h : ∀ t ∈ terms, t.1 < mask) :
    insertWith combine mask angle terms = terms ++ [(mask, angle)] := by
  induction terms with
  | nil => rfl
  | cons t terms ih =>
    obtain ⟨ht, hterms⟩ := List.forall_mem_cons.mp h
    rw [insertWith, if_neg (Nat.not_lt_of_gt ht), if_neg (Nat.ne_of_gt ht), ih hterms]
    rfl

theorem eq_of_terms_eq {p q : PhasePolynomial} (h : p.terms = q.terms) : p = q := by
  cases p
  cases q
  cases h
  rfl

theorem terms_foldl_put {p : PhasePolynomial} {terms : List (Nat × Angle)}
    (h : (p.terms ++ terms).Pairwise fun s t => s.1 < t.1) :
    (terms.foldl (fun p t => p.put t.1 t.2) p).terms = p.terms ++ terms := by
  induction terms generalizing p with
  | nil => simp
  | cons t terms ih =>
    have hput : (p.put t.1 t.2).terms = p.terms ++ [t] :=
      insertWith_of_forall_lt fun s hs =>
        (List.pairwise_append.mp h).2.2 s hs t List.mem_cons_self
    rw [List.foldl_cons, ih, hput, List.append_assoc]
    · rfl
    · rw [hput, List.append_assoc]
      exact h

theorem readsBack {p : PhasePolynomial} (hmask : ∀ t ∈ p.terms, t.1 ≤ Json.maxNat64)
    (hexact : ∀ t ∈ p.terms, t.2.isExact = true) : ReadsBack toJson ofJson? p := by
  have hangle : ∀ t ∈ p.terms, ReadsBack Angle.toJson Angle.ofJson? t.2 :=
    fun t ht => Angle.readsBack (hexact t ht)
  have hslots : p.toJson.slots false ["terms"] =
      some [.given (.object (p.terms.map fun t => (Json.natSpelling t.1, t.2.toJson)))] :=
    Json.slots_ofFields false (by simp) (.refl _)
  constructor
  · apply Json.wellSpelled_ofFields
    refine List.forall_mem_singleton.mpr (.object ?_ ?_)
    · intro m hm
      obtain ⟨t, -, rfl⟩ := List.mem_map.mp hm
      exact ⟨_, (Json.encode_natSpelling t.1).symm⟩
    · intro m hm
      obtain ⟨t, ht, rfl⟩ := List.mem_map.mp hm
      exact (hangle t ht).spelled
  · have hterms : (p.terms.map fun t => (Json.natSpelling t.1, t.2.toJson)).mapM term? =
        some (p.terms.map id) := by
      refine Json.mapM_map_eq_some fun t ht => ?_
      have hkey : (Json.nat? (Json.natSpelling t.1)).filter (· ≤ Json.maxNat64) = some t.1 :=
        (Json.readsBack_ofNat (hmask t ht)).read
      simp [term?, hkey, (hangle t ht).read]
    have hput : p.terms.foldl (fun p t => p.put t.1 t.2) empty = p :=
      eq_of_terms_eq (terms_foldl_put p.ascending)
    simp [ofJson?, hslots, terms?, hterms, hput]

end PhasePolynomial

/-! ## Settings -/

theorem Direction.readsBack (d : Direction) : ReadsBack Direction.toJson Direction.ofJson? d := by
  have hname : Direction.names.lookup d.exchangeName = some d := by cases d <;> rfl
  exact Json.readsBack_choiceField "behavior" .unidirectional Direction.exchangeName hname

theorem WalkOrder.readsBack (o : WalkOrder) : ReadsBack WalkOrder.toJson WalkOrder.ofJson? o := by
  have hname : WalkOrder.names.lookup o.exchangeName = some o := by cases o <;> rfl
  exact Json.readsBack_choiceField "strategy" .gray WalkOrder.exchangeName hname

namespace CnotOptions

/-- The fields of the options, as they are written. -/
def fields (o : CnotOptions) : List (String × Json) :=
  [("partition_size", .ofNat o.partitionSize), ("best_partition_size", .bool o.searchPartition),
    ("allow_rewiring", .bool o.allowRewiring)]

theorem ofJson?_ofFields {o : CnotOptions} (h : o.partitionSize ≤ Json.maxNat32)
    {members : List (String × Json)} (hmembers : members.Perm o.fields) :
    ofJson? (.ofFields members) = some o := by
  have hslots : (Json.ofFields members).slots false
      ["partition_size", "best_partition_size", "allow_rewiring"] =
        some [.given (.ofNat o.partitionSize), .given (.bool o.searchPartition),
          .given (.bool o.allowRewiring)] :=
    Json.slots_ofFields false (by simp [fields]) hmembers
  simp [ofJson?, hslots, (Json.readsBack_ofNat h).read, (Json.readsBack_bool _).read]

theorem readsBack {o : CnotOptions} (h : o.partitionSize ≤ Json.maxNat32) :
    ReadsBack toJson ofJson? o := by
  refine ⟨Json.wellSpelled_ofFields ?_, ofJson?_ofFields h (.refl _)⟩
  simpa using ⟨(Json.readsBack_ofNat h).spelled, Json.WellSpelled.bool _, Json.WellSpelled.bool _⟩

end CnotOptions

namespace Settings

theorem ofJson?_ofFields {s : Settings} {options : Json}
    (hoptions : CnotOptions.ofJson? options = some s.cnot) {sections : List (String × Json)}
    (hsections : sections.Perm [("tbs", s.direction.toJson), ("cnot_patel", options),
      ("linear_synth", s.walk.toJson)]) :
    ofJson? (.ofFields sections) = some s := by
  have hslots : (Json.ofFields sections).slots true ["tbs", "cnot_patel", "linear_synth"] =
      some [.given s.direction.toJson, .given options, .given s.walk.toJson] :=
    Json.slots_ofFields true (by simp) hsections
  simp [ofJson?, hslots, (Direction.readsBack _).read, hoptions, (WalkOrder.readsBack _).read]

theorem readsBack {s : Settings} (h : s.cnot.partitionSize ≤ Json.maxNat32) :
    ReadsBack toJson ofJson? s := by
  have hcnot := CnotOptions.readsBack h
  refine ⟨Json.wellSpelled_ofFields ?_, ofJson?_ofFields hcnot.read (.refl _)⟩
  simpa using ⟨(Direction.readsBack _).spelled, hcnot.spelled, (WalkOrder.readsBack _).spelled⟩

end Settings

/-! ## The exchange -/

/-- **Exchange.** Gates with exact angles, phase polynomials with exact angles,
truth tables, matrices and settings are read back from their text as they
were. The members of settings may come in any order. A list of numbers in range
is read as a table or as a matrix exactly when the checked constructor accepts
it, and nothing but such a list is. -/
theorem exchange_reads_back :
    (∀ g : Gate, (∀ w ∈ g.operands, w.index ≤ Json.maxNat32) →
      (∀ a ∈ g.operation.angle?, a.isExact = true) →
      (Json.parse? g.toJson.render).bind Gate.ofJson? = some g) ∧
    (∀ p : PhasePolynomial, (∀ t ∈ p.terms, t.1 ≤ Json.maxNat64) →
      (∀ t ∈ p.terms, t.2.isExact = true) →
      (Json.parse? p.toJson.render).bind PhasePolynomial.ofJson? = some p) ∧
    (∀ f : ReversibleFunction,
      (Json.parse? f.toJson.render).bind ReversibleFunction.ofJson? = some f) ∧
    (∀ m : BinaryMatrix, m.WellFormed →
      (Json.parse? m.toJson.render).bind BinaryMatrix.ofJson? = some m) ∧
    (∀ s : Settings, s.cnot.partitionSize ≤ Json.maxNat32 →
      Settings.ofText s.toJson.render = .ok s ∧
      ∀ options sections, options.Perm s.cnot.fields →
        sections.Perm [("tbs", s.direction.toJson), ("cnot_patel", .ofFields options),
          ("linear_synth", s.walk.toJson)] →
        Settings.ofJson (.ofFields sections) = .ok s) ∧
    (∀ text,
      (∀ values, Json.parse? text = some (.ofList .ofNat values) →
        (∀ v ∈ values, v ≤ Json.maxNat32) → ∀ f,
        (Json.parse? text).bind ReversibleFunction.ofJson? = some f ↔
          ReversibleFunction.ofTable values.toArray = .ok f) ∧
      (∀ f, (Json.parse? text).bind ReversibleFunction.ofJson? = some f →
        Json.parse? text = some f.toJson)) ∧
    ∀ text,
      (∀ rows, Json.parse? text = some (.ofList .ofNat rows) →
        (∀ row ∈ rows, row ≤ Json.maxNat64) → ∀ m,
        (Json.parse? text).bind BinaryMatrix.ofJson? = some m ↔ BinaryMatrix.ofRows rows = .ok m) ∧
      (∀ m, (Json.parse? text).bind BinaryMatrix.ofJson? = some m →
        Json.parse? text = some m.toJson) := by
  refine ⟨fun g hindex hexact => (Gate.readsBack hindex hexact).text,
    fun p hmask hexact => (PhasePolynomial.readsBack hmask hexact).text,
    fun f => f.readsBack.text, fun m hm => (BinaryMatrix.readsBack hm).text,
    fun s hsize => ⟨?_, fun options sections hoptions hsections => ?_⟩,
    fun text => ⟨fun values htext hle f => ?_, fun f hf => ?_⟩,
    fun text => ⟨fun rows htext hle m => ?_, fun m hm => ?_⟩⟩
  · have hs := Settings.readsBack hsize
    simp [Settings.ofText, Settings.ofJson, Json.parse?_render hs.spelled, hs.read]
  · have hcnot := CnotOptions.ofJson?_ofFields hsize hoptions
    simp [Settings.ofJson, Settings.ofJson?_ofFields hcnot hsections]
  · rw [htext]
    exact ReversibleFunction.ofJson?_ofList hle
  · obtain ⟨j, hj, hread⟩ := Option.bind_eq_some_iff.mp hf
    rw [hj, ReversibleFunction.ofJson?_eq_some_iff.mp hread]
  · rw [htext]
    exact BinaryMatrix.ofJson?_ofList hle
  · obtain ⟨j, hj, hread⟩ := Option.bind_eq_some_iff.mp hm
    rw [hj, (BinaryMatrix.ofJson?_eq_some_iff.mp hread).1]

/-- A rotation under a complemented control with the largest index, a term on
all 64 qubits, and settings with their members in the order of the alphabet. Of
two lists with blanks in them, one is read and one refused. -/
theorem exchange_reads_back_extremes :
    let g : Gate := ⟨.rotation .z (.turn 3), [⟨4294967295, .qubit, .negative⟩],
      [⟨0, .cbit, .positive⟩, ⟨1, .qubit, .negative⟩]⟩
    let p : PhasePolynomial := ⟨[(1, .turn 1), (2 ^ 64 - 1, .turn 7)], by simp⟩
    let m : BinaryMatrix := ⟨[3, 2]⟩
    let s : Settings := ⟨.multidirectional, ⟨4294967295, false, true⟩, .binary⟩
    (Json.parse? g.toJson.render).bind Gate.ofJson? = some g ∧
    (Json.parse? p.toJson.render).bind PhasePolynomial.ofJson? = some p ∧
    (Json.parse? m.toJson.render).bind BinaryMatrix.ofJson? = some m ∧
    Settings.ofJson (.ofFields [
      ("cnot_patel", .ofFields [("allow_rewiring", .bool true),
        ("best_partition_size", .bool false), ("partition_size", .ofNat 4294967295)]),
      ("linear_synth", s.walk.toJson), ("tbs", s.direction.toJson)]) = .ok s ∧
    (∃ f, f.table = #[1, 0] ∧
      (Json.parse? "[ 1, 0 ]").bind ReversibleFunction.ofJson? = some f) ∧
    ∀ m, (Json.parse? "[4, 1]").bind BinaryMatrix.ofJson? ≠ some m := by
  intro g p m s
  obtain ⟨hgate, hpolynomial, -, hmatrix, hsettings, htable, hrows⟩ := exchange_reads_back
  refine ⟨hgate g (by decide) (by decide), hpolynomial p (by decide) (by decide),
    hmatrix m ⟨by decide, by decide⟩, ?_, ?_, fun m hm => ?_⟩
  · refine (hsettings s (by decide)).2 _ _ (List.reverse_perm s.cnot.fields) ?_
    show ([_, _] ++ [_]).Perm ([_] ++ [_, _])
    exact List.perm_append_comm
  · obtain ⟨f, hf⟩ : ∃ f, ReversibleFunction.ofTable #[1, 0] = .ok f := ⟨_, rfl⟩
    exact ⟨f, ReversibleFunction.ofTable_eq_ok_iff.mp hf,
      ((htable _).1 [1, 0] rfl (by decide) f).mpr hf⟩
  · have haccepted := ((hrows _).1 [4, 1] rfl (by decide) m).mp hm
    cases haccepted

end CircuitSynthesis
