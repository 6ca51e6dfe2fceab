/-!
# JSON documents

The tree of a document as written: numbers keep their spelling, texts their
escapes, and objects the order and repetition of their members. Readers of
particular kinds of data decide how much of that matters to them.
-/

namespace CircuitSynthesis

/-- A JSON document. -/
inductive Json where
  | null
  | bool (value : Bool)
  /-- A number, as it is spelled. -/
  | number (spelling : List Char)
  /-- A text, as it stands between the quotes. -/
  | text (raw : List Char)
  | array (items : List Json)
  | object (members : List (List Char × Json))

namespace Json

/-- The characters that may stand between tokens. -/
def isBlank (c : Char) : Bool := c == ' ' || c == '\t' || c == '\n' || c == '\r'

/-- Quotes around a text. -/
def quoted (raw : List Char) : List Char := '"' :: raw ++ ['"']

mutual

/-- The document without blanks. -/
def chars : Json → List Char
  | .null => ['n', 'u', 'l', 'l']
  | .bool true => ['t', 'r', 'u', 'e']
  | .bool false => ['f', 'a', 'l', 's', 'e']
  | .number spelling => spelling
  | .text raw => quoted raw
  | .array items => '[' :: itemChars items ++ [']']
  | .object members => '\x7b' :: memberChars members ++ ['\x7d']

/-- Items divided by commas. -/
def itemChars : List Json → List Char
  | [] => []
  | [item] => item.chars
  | item :: rest => item.chars ++ ',' :: itemChars rest

/-- Members divided by commas. -/
def memberChars : List (List Char × Json) → List Char
  | [] => []
  | [(key, value)] => quoted key ++ ':' :: value.chars
  | (key, value) :: rest => quoted key ++ ':' :: value.chars ++ ',' :: memberChars rest

end

/-- The document as text without blanks. -/
def render (j : Json) : String := String.ofList j.chars

end Json

end CircuitSynthesis
