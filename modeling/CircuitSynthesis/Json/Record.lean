import CircuitSynthesis.Json.Reader

/-!
# Records, choices and lists in JSON documents

A record is an object with the names of its fields as keys, in any order, or
an array with the fields in their order. A choice is the name of an
alternative, or an object with that name as its only key. Unknown keys of a
record are skipped, whatever their value, unless the record is closed; a key
of a field may occur only once.
-/

namespace CircuitSynthesis.Json

/-- The value of a field in a record. -/
inductive Slot where
  | given (value : Json)
  /-- The object has no such key. -/
  | missingKey
  /-- The array is too short. -/
  | missingItem

namespace Slot

/-- A field that must be there. -/
def required {α : Type} (read : Json → Option α) : Slot → Option α
  | .given v => read v
  | _ => none

/-- A field that takes a default when it is not there. -/
def withDefault {α : Type} (default : α) (read : Json → Option α) : Slot → Option α
  | .given v => read v
  | _ => some default

/-- A field that may be null or, in an object, not there. -/
def nullable {α : Type} (read : Json → Option α) : Slot → Option (Option α)
  | .given .null => some none
  | .given v => (read v).map some
  | .missingKey => some none
  | .missingItem => none

end Slot

/-- The value of a field among the members of an object. -/
def memberSlot (members : List (String × Json)) (name : String) : Option Slot :=
  match members.filter (·.1 == name) with
  | [] => some .missingKey
  | [(_, v)] => some (.given v)
  | _ => none

/-- The members with their keys resolved. -/
def resolvedMembers (members : List (List Char × Json)) : Option (List (String × Json)) :=
  members.mapM fun (key, v) => (decode? key).map (·, v)

/-- The slots of the fields of a record. -/
def slots (closed : Bool) (names : List String) : Json → Option (List Slot)
  | .array items =>
    if names.length < items.length then none
    else some (items.map .given ++ List.replicate (names.length - items.length) .missingItem)
  | .object members => do
    let members ← resolvedMembers members
    if closed && members.any (!names.contains ·.1) then none
    else names.mapM (memberSlot members)
  | _ => none

/-- The name and the value of a choice. -/
def choice? : Json → Option (String × Option Json)
  | .text raw => (decode? raw).map (·, none)
  | .object [(key, v)] => (decode? key).map (·, some v)
  | _ => none

/-- An alternative without a value, by name. -/
def plainChoice? {α : Type} (names : List (String × α)) (j : Json) : Option α := do
  match ← choice? j with
  | (name, none) | (name, some .null) => names.lookup name
  | _ => none

/-- All items of an array. -/
def list? {α : Type} (read : Json → Option α) : Json → Option (List α)
  | .array items => items.mapM read
  | _ => none

/-- A natural number up to a bound. -/
def natUpTo? (max : Nat) : Json → Option Nat
  | .number spelling => (nat? spelling).filter (· ≤ max)
  | _ => none

/-- Largest number of 32 bits. -/
def maxNat32 : Nat := UInt32.size - 1

/-- Largest number of 64 bits. -/
def maxNat64 : Nat := UInt64.size - 1

def bool? : Json → Option Bool
  | .bool b => some b
  | _ => none

def string? : Json → Option String
  | .text raw => decode? raw
  | _ => none

/-! ## Writing -/

def ofNat (n : Nat) : Json := .number (natSpelling n)

def ofString (s : String) : Json := .text (encode s)

/-- A record, with its fields in their order. -/
def ofFields (fields : List (String × Json)) : Json :=
  .object (fields.map fun (name, v) => (encode name, v))

/-- An alternative that carries a value. -/
def ofChoice (name : String) (v : Json) : Json := ofFields [(name, v)]

def ofList {α : Type} (write : α → Json) (items : List α) : Json := .array (items.map write)

end CircuitSynthesis.Json
