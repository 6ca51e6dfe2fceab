import CircuitSynthesis.Json.Basic
import CircuitSynthesis.Json.Number
import CircuitSynthesis.Json.Text

/-!
# Tokens of JSON documents

Characters are grouped into tokens in one pass. Words, numbers and texts are
runs that a character either continues or ends; a run must be well formed
when it ends.
-/

namespace CircuitSynthesis.Json

/-- A token of a document. -/
inductive Token where
  | openBracket
  | closeBracket
  | openBrace
  | closeBrace
  | comma
  | colon
  | null
  | bool (value : Bool)
  | number (spelling : List Char)
  | text (raw : List Char)
  deriving DecidableEq, Repr

/-- What an escape inside a text still lacks. -/
inductive Pending where
  | nothing
  /-- A backslash was read. -/
  | letter
  /-- That many hexadecimal digits are to come. -/
  | hex (count : Nat)
  deriving DecidableEq, Repr

/-- The run being read, its characters in reverse. -/
inductive Run where
  | blank
  | word (read : List Char)
  | number (read : List Char)
  | text (read : List Char) (pending : Pending)
  /-- A text whose closing quote was read. -/
  | closed (raw : List Char)
  deriving DecidableEq, Repr

/-- The characters of numbers. -/
def isNumberChar (c : Char) : Bool :=
  c.isDigit || c == '-' || c == '+' || c == '.' || c == 'e' || c == 'E'

/-- The token of a word. -/
def keyword? : List Char → Option Token
  | ['n', 'u', 'l', 'l'] => some .null
  | ['t', 'r', 'u', 'e'] => some (.bool true)
  | ['f', 'a', 'l', 's', 'e'] => some (.bool false)
  | _ => none

/-- The token of a punctuation mark. -/
def punctuation? : Char → Option Token
  | '[' => some .openBracket
  | ']' => some .closeBracket
  | '\x7b' => some .openBrace
  | '\x7d' => some .closeBrace
  | ',' => some .comma
  | ':' => some .colon
  | _ => none

namespace Run

/-- Continue a text. Control characters must be escaped. -/
def extendText (read : List Char) : Pending → Char → Option Run
  | .nothing, '"' => some (.closed read.reverse)
  | .nothing, '\\' => some (.text ('\\' :: read) .letter)
  | .nothing, c => if c < ' ' then none else some (.text (c :: read) .nothing)
  | .letter, 'u' => some (.text ('u' :: read) (.hex 4))
  | .letter, c => (simpleEscape? c).map fun _ => .text (c :: read) .nothing
  | .hex count, c =>
    (hexValue? c).map fun _ => .text (c :: read) (if count ≤ 1 then .nothing else .hex (count - 1))

/-- The run continued by a character, if it can be. -/
def extend : Run → Char → Option Run
  | .word read, c => if c.isAlpha then some (.word (c :: read)) else none
  | .number read, c => if isNumberChar c then some (.number (c :: read)) else none
  | .text read pending, c => extendText read pending c
  | .blank, _ | .closed _, _ => none

/-- The tokens of a run that ends. -/
def finish : Run → Option (List Token)
  | .blank => some []
  | .word read => (keyword? read.reverse).map ([·])
  | .number read => (numberParts? read.reverse).map fun _ => [.number read.reverse]
  | .text _ _ => none
  | .closed raw => some [.text raw]

/-- The tokens and the run that a character begins. -/
def start (c : Char) : Option (List Token × Run) :=
  if isBlank c then some ([], .blank)
  else if c = '"' then some ([], .text [] .nothing)
  else if c.isDigit ∨ c = '-' then some ([], .number [c])
  else if c.isAlpha then some ([], .word [c])
  else (punctuation? c).map fun t => ([t], .blank)

end Run

/-- The tokens of the characters that follow a run. -/
def tokensFrom (run : Run) : List Char → Option (List Token)
  | [] => run.finish
  | c :: rest =>
    match run.extend c with
    | some run => tokensFrom run rest
    | none => do
      let ended ← run.finish
      let (begun, run) ← Run.start c
      return ended ++ begun ++ (← tokensFrom run rest)

/-- The tokens of a document. -/
def tokens? (chars : List Char) : Option (List Token) := tokensFrom .blank chars

end CircuitSynthesis.Json
