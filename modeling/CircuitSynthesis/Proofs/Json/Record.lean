import CircuitSynthesis.Json.Record
import CircuitSynthesis.Proofs.Json.Reading

/-!
# Records, choices and lists read back

A value reads back when its document is well spelled and is read as that value
(`ReadsBack`); then it is also read from the rendered text (`ReadsBack.text`).
Fields of a record are found by name, so their order does not matter
(`slots_ofFields`).
-/

namespace CircuitSynthesis.Json

/-- What is written for a value can be rendered, and is read as that value. -/
structure ReadsBack {α : Type} (write : α → Json) (read : Json → Option α) (a : α) : Prop where
  spelled : WellSpelled (write a)
  read : read (write a) = some a

theorem ReadsBack.text {α : Type} {write : α → Json} {read : Json → Option α} {a : α}
    (h : ReadsBack write read a) : (parse? (write a).render).bind read = some a := by
  rw [parse?_render h.spelled]
  exact h.read

/-! ## Numbers, lists and choices -/

theorem mapM_map_eq_some {α β γ : Type} {write : α → β} {read : β → Option γ} {f : α → γ}
    {l : List α} (h : ∀ a ∈ l, read (write a) = some (f a)) :
    (l.map write).mapM read = some (l.map f) := by
  induction l with
  | nil => rfl
  | cons a l ih =>
    obtain ⟨ha, hl⟩ := List.forall_mem_cons.mp h
    simp [ha, ih hl]

theorem readsBack_ofNat {n max : Nat} (h : n ≤ max) : ReadsBack ofNat (natUpTo? max) n := by
  refine ⟨.number (numberParts?_of_isDigits (isDigits_natSpelling n) (natSpelling_of_head? n)), ?_⟩
  simp [natUpTo?, ofNat, nat?_eq_some_iff.mpr rfl, h]

theorem readsBack_bool (b : Bool) : ReadsBack .bool bool? b := ⟨.bool b, rfl⟩

theorem readsBack_ofList {α : Type} {write : α → Json} {read : Json → Option α} {items : List α}
    (h : ∀ a ∈ items, ReadsBack write read a) : ReadsBack (ofList write) (list? read) items := by
  constructor
  · refine .array fun item hitem => ?_
    obtain ⟨a, ha, rfl⟩ := List.mem_map.mp hitem
    exact (h a ha).spelled
  · show (items.map write).mapM read = some items
    rw [mapM_map_eq_some fun a ha => (h a ha).read, List.map_id']

theorem readsBack_ofList_ofNat {max : Nat} {values : List Nat} (h : ∀ v ∈ values, v ≤ max) :
    ReadsBack (ofList ofNat) (list? (natUpTo? max)) values :=
  readsBack_ofList fun v hv => readsBack_ofNat (h v hv)

/-- A number that is read is spelled by its digits. -/
theorem natUpTo?_eq_some_iff {max n : Nat} {j : Json} :
    natUpTo? max j = some n ↔ j = ofNat n ∧ n ≤ max := by
  constructor
  · intro h
    cases j with
    | number spelling =>
      obtain ⟨hnat, hle⟩ := Option.filter_eq_some_iff.mp h
      rw [nat?_eq_some_iff.mp hnat]
      exact ⟨rfl, by simpa using hle⟩
    | _ => cases h
  · rintro ⟨rfl, h⟩
    exact (readsBack_ofNat h).read

theorem list?_natUpTo?_eq_some_iff {max : Nat} {j : Json} {values : List Nat} :
    list? (natUpTo? max) j = some values ↔ j = ofList ofNat values ∧ ∀ v ∈ values, v ≤ max := by
  constructor
  · intro h
    cases j with
    | array items =>
      suffices hitems : items = values.map ofNat ∧ ∀ v ∈ values, v ≤ max from
        ⟨congrArg Json.array hitems.1, hitems.2⟩
      change items.mapM (natUpTo? max) = some values at h
      induction items generalizing values with
      | nil =>
        cases h
        exact ⟨rfl, nofun⟩
      | cons item items ih =>
        rw [List.mapM_cons] at h
        obtain ⟨v, hv, h⟩ := Option.bind_eq_some_iff.mp h
        obtain ⟨more, hmore, ⟨⟩⟩ := Option.bind_eq_some_iff.mp h
        obtain ⟨rfl, hle⟩ := natUpTo?_eq_some_iff.mp hv
        obtain ⟨rfl, hles⟩ := ih hmore
        exact ⟨rfl, List.forall_mem_cons.mpr ⟨hle, hles⟩⟩
    | _ => cases h
  · rintro ⟨rfl, h⟩
    exact (readsBack_ofList_ofNat h).read

theorem choice?_ofString (name : String) : (ofString name).choice? = some (name, none) := by
  simp [ofString, choice?]

theorem choice?_ofChoice (name : String) (v : Json) :
    (ofChoice name v).choice? = some (name, some v) := by
  simp [ofChoice, ofFields, choice?]

theorem readsBack_plainChoice {α : Type} (write : α → String) {names : List (String × α)} {a : α}
    (h : names.lookup (write a) = some a) :
    ReadsBack (fun a => ofString (write a)) (plainChoice? names) a := by
  refine ⟨.text _, ?_⟩
  show plainChoice? names (ofString (write a)) = some a
  unfold plainChoice?
  rw [choice?_ofString]
  exact h

/-! ## Fields -/

@[simp] theorem Slot.required_given {α : Type} (read : Json → Option α) (v : Json) :
    (Slot.given v).required read = read v := rfl

@[simp] theorem Slot.withDefault_given {α : Type} (default : α) (read : Json → Option α)
    (v : Json) : (Slot.given v).withDefault default read = read v := rfl

theorem wellSpelled_ofFields {fields : List (String × Json)}
    (h : ∀ field ∈ fields, WellSpelled field.2) : WellSpelled (ofFields fields) := by
  refine .object ?_ ?_
  · intro m hm
    obtain ⟨field, -, rfl⟩ := List.mem_map.mp hm
    exact ⟨field.1, rfl⟩
  · intro m hm
    obtain ⟨field, hfield, rfl⟩ := List.mem_map.mp hm
    exact h field hfield

theorem resolvedMembers_encode (fields : List (String × Json)) :
    resolvedMembers (fields.map fun (name, v) => (encode name, v)) = some fields := by
  unfold resolvedMembers
  rw [mapM_map_eq_some (f := id) fun field _ => by simp, List.map_id]

theorem filter_fst_eq_of_mem {fields : List (String × Json)} (hnodup : (fields.map (·.1)).Nodup)
    {field : String × Json} (h : field ∈ fields) : fields.filter (·.1 == field.1) = [field] := by
  induction fields with
  | nil => cases h
  | cons first fields ih =>
    obtain ⟨hfirst, hnodup⟩ := List.nodup_cons.mp hnodup
    rcases List.mem_cons.mp h with rfl | h
    · rw [List.filter_cons_of_pos (by simp), List.filter_eq_nil_iff.mpr]
      intro other hother hname
      exact hfirst (List.mem_map.mpr ⟨other, hother, eq_of_beq hname⟩)
    · rw [List.filter_cons_of_neg, ih hnodup h]
      intro hname
      exact hfirst (List.mem_map.mpr ⟨field, h, (eq_of_beq hname).symm⟩)

theorem memberSlot_of_mem {fields : List (String × Json)} (hnodup : (fields.map (·.1)).Nodup)
    {field : String × Json} (h : field ∈ fields) :
    memberSlot fields field.1 = some (.given field.2) := by
  unfold memberSlot
  rw [filter_fst_eq_of_mem hnodup h]

/-- **Fields.** All fields of a record are found, in whatever order they come. -/
theorem slots_ofFields (closed : Bool) {fields members : List (String × Json)}
    (hnodup : (fields.map (·.1)).Nodup) (hperm : members.Perm fields) :
    (ofFields members).slots closed (fields.map (·.1)) = some (fields.map (.given ·.2)) := by
  have hknown : members.any (fun m => !(fields.map (·.1)).contains m.1) = false := by
    rw [List.any_eq_false]
    intro m hm
    simpa using ⟨m.2, hperm.mem_iff.mp hm⟩
  have hslots : (fields.map (·.1)).mapM (memberSlot members) = some (fields.map (.given ·.2)) :=
    mapM_map_eq_some fun field hfield =>
      memberSlot_of_mem ((hperm.map _).nodup_iff.mpr hnodup) (hperm.mem_iff.mpr hfield)
  show (do
    let members ← resolvedMembers (members.map fun (name, v) => (encode name, v))
    if closed && members.any (fun m => !(fields.map (·.1)).contains m.1) then none
    else (fields.map (·.1)).mapM (memberSlot members)) = some (fields.map (.given ·.2))
  rw [resolvedMembers_encode]
  simp only [Option.bind_eq_bind, Option.bind_some, hknown, Bool.and_false, Bool.false_eq_true,
    if_false, hslots]

/-- A record whose only field is a choice with a default. -/
theorem readsBack_choiceField {α : Type} (key : String) (default : α) (write : α → String)
    {names : List (String × α)} {a : α} (h : names.lookup (write a) = some a) :
    ReadsBack (fun a => ofFields [(key, ofString (write a))])
      (fun j => do
        match ← j.slots false [key] with
        | [slot] => slot.withDefault default (plainChoice? names)
        | _ => none) a := by
  have hchoice := readsBack_plainChoice write h
  have hslots : (ofFields [(key, ofString (write a))]).slots false [key] =
      some [.given (ofString (write a))] :=
    slots_ofFields false (by simp) (.refl _)
  constructor
  · exact wellSpelled_ofFields (List.forall_mem_singleton.mpr hchoice.spelled)
  · simp [hslots, hchoice.read]

end CircuitSynthesis.Json
