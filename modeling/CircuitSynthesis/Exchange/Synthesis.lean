import CircuitSynthesis.Exchange.Gate
import CircuitSynthesis.PhasePolynomial
import CircuitSynthesis.ReversibleFunction
import CircuitSynthesis.Synthesis.Options

/-!
# JSON form of synthesis problems and options

Tables and matrices are checked when they are read. Options that are left out
take their defaults, so that an empty object describes the default settings.
-/

namespace CircuitSynthesis

/-! ## Problems -/

namespace ReversibleFunction

def toJson (f : ReversibleFunction) : Json := .ofList Json.ofNat f.table.toList

def ofJson? (j : Json) : Option ReversibleFunction := do
  let table ← Json.list? (Json.natUpTo? Json.maxNat32) j
  (ofTable table.toArray).toOption

end ReversibleFunction

namespace BinaryMatrix

def toJson (m : BinaryMatrix) : Json := .ofList Json.ofNat m.rows

def ofJson? (j : Json) : Option BinaryMatrix := do
  let rows ← Json.list? (Json.natUpTo? Json.maxNat64) j
  (ofRows rows).toOption

end BinaryMatrix

namespace PhasePolynomial

/-- Terms are members of an object, with the mask in decimal as their key. -/
def toJson (p : PhasePolynomial) : Json :=
  .ofFields [("terms", .object (p.terms.map fun (mask, a) => (Json.natSpelling mask, a.toJson)))]

/-- Read a term; the key must spell a number of 64 bits without escapes. -/
def term? : List Char × Json → Option (Nat × Angle)
  | (key, v) => do return (← (Json.nat? key).filter (· ≤ Json.maxNat64), ← Angle.ofJson? v)

/-- Read the terms; of terms with equal masks the last one counts. -/
def terms? : Json → Option PhasePolynomial
  | .object members => do
    let terms ← members.mapM term?
    return terms.foldl (fun p t => p.put t.1 t.2) empty
  | _ => none

def ofJson? (j : Json) : Option PhasePolynomial := do
  match ← j.slots false ["terms"] with
  | [terms] => terms.required terms?
  | _ => none

end PhasePolynomial

/-! ## Options -/

namespace Direction

def exchangeName : Direction → String
  | .unidirectional => "unidirectional"
  | .bidirectional => "bidirectional"
  | .multidirectional => "multidirectional"

def names : List (String × Direction) :=
  [.unidirectional, .bidirectional, .multidirectional].map fun d => (d.exchangeName, d)

/-- The section of the settings for cascades. -/
def toJson (d : Direction) : Json := .ofFields [("behavior", .ofString d.exchangeName)]

def ofJson? (j : Json) : Option Direction := do
  match ← j.slots false ["behavior"] with
  | [behavior] => behavior.withDefault .unidirectional (Json.plainChoice? names)
  | _ => none

end Direction

namespace WalkOrder

def exchangeName : WalkOrder → String
  | .binary => "binary"
  | .gray => "gray"

def names : List (String × WalkOrder) := [.binary, .gray].map fun o => (o.exchangeName, o)

/-- The section of the settings for staircases. -/
def toJson (o : WalkOrder) : Json := .ofFields [("strategy", .ofString o.exchangeName)]

def ofJson? (j : Json) : Option WalkOrder := do
  match ← j.slots false ["strategy"] with
  | [strategy] => strategy.withDefault .gray (Json.plainChoice? names)
  | _ => none

end WalkOrder

namespace CnotOptions

def toJson (o : CnotOptions) : Json :=
  .ofFields [("partition_size", .ofNat o.partitionSize),
    ("best_partition_size", .bool o.searchPartition), ("allow_rewiring", .bool o.allowRewiring)]

def ofJson? (j : Json) : Option CnotOptions := do
  match ← j.slots false ["partition_size", "best_partition_size", "allow_rewiring"] with
  | [size, search, rewiring] =>
    return ⟨← size.withDefault default.partitionSize (Json.natUpTo? Json.maxNat32),
      ← search.withDefault default.searchPartition Json.bool?,
      ← rewiring.withDefault default.allowRewiring Json.bool?⟩
  | _ => none

end CnotOptions

namespace ParityOptions

def toJson (o : ParityOptions) : Json :=
  .ofFields [("linear_transform", (o.transform.map BinaryMatrix.toJson).getD .null),
    ("cnot_patel", o.cnot.toJson)]

/-- A matrix or null. -/
def transform? : Json → Option (Option BinaryMatrix)
  | .null => some none
  | j => (BinaryMatrix.ofJson? j).map some

def ofJson? (j : Json) : Option ParityOptions := do
  match ← j.slots false ["linear_transform", "cnot_patel"] with
  | [transform, cnot] =>
    return ⟨← transform.withDefault none transform?,
      ← cnot.withDefault .default CnotOptions.ofJson?⟩
  | _ => none

end ParityOptions

namespace Settings

def toJson (s : Settings) : Json :=
  .ofFields [("tbs", s.direction.toJson), ("cnot_patel", s.cnot.toJson),
    ("linear_synth", s.walk.toJson)]

/-- Read settings; sections that are not known are refused. -/
def ofJson? (j : Json) : Option Settings := do
  match ← j.slots true ["tbs", "cnot_patel", "linear_synth"] with
  | [direction, cnot, walk] =>
    return ⟨← direction.withDefault default.direction Direction.ofJson?,
      ← cnot.withDefault default.cnot CnotOptions.ofJson?,
      ← walk.withDefault default.walk WalkOrder.ofJson?⟩
  | _ => none

/-- Settings from a document or a value tree. -/
def ofJson (j : Json) : Except SynthesisError Settings :=
  match ofJson? j with
  | some s => .ok s
  | none => .error .unreadableSettings

/-- Settings from the text of a document. -/
def ofText (text : String) : Except SynthesisError Settings :=
  match Json.parse? text with
  | some j => ofJson j
  | none => .error .unreadableSettings

end Settings

end CircuitSynthesis
