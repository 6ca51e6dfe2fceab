import CircuitSynthesis.Json.Token

/-!
# Reading JSON documents

A machine reads one token after another. It keeps the containers that are
still open, innermost first, and knows what may come next.
-/

namespace CircuitSynthesis.Json

/-- A container that waits for a value, with what it holds in reverse. -/
inductive Frame where
  | array (items : List Json)
  | object (members : List (List Char × Json)) (key : List Char)

/-- What has been read and what may come next. -/
inductive Reading where
  /-- A value. -/
  | value (frames : List Frame)
  /-- A value or the end of an array just begun. -/
  | firstItem (frames : List Frame)
  /-- A comma or the end of an array. -/
  | afterItem (items : List Json) (frames : List Frame)
  /-- A key or the end of an object just begun. -/
  | firstKey (frames : List Frame)
  /-- A key. -/
  | nextKey (members : List (List Char × Json)) (frames : List Frame)
  /-- A colon. -/
  | colon (members : List (List Char × Json)) (key : List Char) (frames : List Frame)
  /-- A comma or the end of an object. -/
  | afterMember (members : List (List Char × Json)) (frames : List Frame)
  /-- Nothing more. -/
  | complete (document : Json)

namespace Reading

/-- Give a value to the innermost open container. -/
def give (v : Json) : List Frame → Reading
  | [] => .complete v
  | .array items :: frames => .afterItem (v :: items) frames
  | .object members key :: frames => .afterMember ((key, v) :: members) frames

/-- Begin a value. -/
def begin (frames : List Frame) : Token → Option Reading
  | .null => some (give .null frames)
  | .bool b => some (give (.bool b) frames)
  | .number spelling => some (give (.number spelling) frames)
  | .text raw => some (give (.text raw) frames)
  | .openBracket => some (.firstItem frames)
  | .openBrace => some (.firstKey frames)
  | _ => none

/-- Read one token. -/
def step : Reading → Token → Option Reading
  | .value frames, t => begin frames t
  | .firstItem frames, .closeBracket => some (give (.array []) frames)
  | .firstItem frames, t => begin (.array [] :: frames) t
  | .afterItem items frames, .comma => some (.value (.array items :: frames))
  | .afterItem items frames, .closeBracket => some (give (.array items.reverse) frames)
  | .firstKey frames, .closeBrace => some (give (.object []) frames)
  | .firstKey frames, .text key => some (.colon [] key frames)
  | .nextKey members frames, .text key => some (.colon members key frames)
  | .colon members key frames, .colon => some (.value (.object members key :: frames))
  | .afterMember members frames, .comma => some (.nextKey members frames)
  | .afterMember members frames, .closeBrace => some (give (.object members.reverse) frames)
  | _, _ => none

end Reading

/-- Read a text that holds one document. -/
def parse? (s : String) : Option Json := do
  let tokens ← tokens? s.toList
  match ← tokens.foldlM Reading.step (.value []) with
  | .complete document => return document
  | _ => none

/-! ## Value trees

A document can also be turned into a tree of plain values first. Then every
text must denote one, numbers must be in range, nesting is bounded, and of
members with equal keys the last one counts.
-/

/-- Deepest nesting of containers in a value tree. -/
def maxDepth : Nat := 127

/-- Whether two spellings of a key denote the same text. -/
def sameKey (k k' : List Char) : Bool := decodeChars k == decodeChars k'

/-- Drop members whose key occurs again later. -/
def lastMembers : List (List Char × Json) → List (List Char × Json)
  | [] => []
  | (key, v) :: rest =>
    if rest.any (sameKey key ·.1) then lastMembers rest else (key, v) :: lastMembers rest

mutual

/-- The document as a value tree with at most `depth` nested containers. -/
def toValue? (depth : Nat) : Json → Option Json
  | .null => some .null
  | .bool b => some (.bool b)
  | .number spelling => (float? spelling).map fun _ => .number spelling
  | .text raw => (decodeChars raw).map fun _ => .text raw
  | .array items => match depth with
    | 0 => none
    | depth + 1 => (itemValues? depth items).map .array
  | .object members => match depth with
    | 0 => none
    | depth + 1 => (memberValues? depth members).map fun ms => .object (lastMembers ms)

/-- The items as value trees. -/
def itemValues? (depth : Nat) : List Json → Option (List Json)
  | [] => some []
  | item :: rest => do return (← item.toValue? depth) :: (← itemValues? depth rest)

/-- The members as value trees; every key must denote a text. -/
def memberValues? (depth : Nat) : List (List Char × Json) → Option (List (List Char × Json))
  | [] => some []
  | (key, v) :: rest => do
    let _ ← decodeChars key
    return (key, ← v.toValue? depth) :: (← memberValues? depth rest)

end

end CircuitSynthesis.Json
