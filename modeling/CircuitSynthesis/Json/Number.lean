import CircuitSynthesis.Decimal.Layout

/-!
# Numbers in JSON documents

A spelling is read as a natural number when it has neither sign, fraction nor
exponent. It is read as a double by keeping the leading digits that fit a
machine word, rounding them to a double and scaling that once by a power of
ten; a number beyond the largest double is refused.
-/

namespace CircuitSynthesis.Json

/-- The parts of a number: digits before the point, after the point, and of
the exponent. -/
structure NumberParts where
  negative : Bool
  whole : List Char
  fraction : List Char
  exponentNegative : Bool
  exponent : List Char
  /-- The number has a fraction or an exponent. -/
  isDecimal : Bool
  deriving DecidableEq, Repr

/-- The digits at the front, of which there must be one, and the rest. -/
def takeDigits (cs : List Char) : Option (List Char × List Char) :=
  match cs.span (·.isDigit) with
  | ([], _) => none
  | (digits, rest) => some (digits, rest)

/-- A leading minus sign. -/
def takeMinus : List Char → Bool × List Char
  | '-' :: rest => (true, rest)
  | cs => (false, cs)

/-- Digits before the point: a single zero, or no zero in front. -/
def takeWhole (cs : List Char) : Option (List Char × List Char) := do
  let (digits, rest) ← takeDigits cs
  match digits with
  | '0' :: _ :: _ => none
  | _ => return (digits, rest)

/-- A point and digits, if there is a point. -/
def takeFraction : List Char → Option (List Char × List Char)
  | '.' :: rest => takeDigits rest
  | cs => some ([], cs)

/-- The sign of an exponent. -/
def takeSign : List Char → Bool × List Char
  | '+' :: rest => (false, rest)
  | cs => takeMinus cs

/-- An exponent, if there is one. -/
def takeExponent : List Char → Option ((Bool × List Char) × List Char)
  | 'e' :: rest | 'E' :: rest => do
    let (negative, rest) := takeSign rest
    let (digits, rest) ← takeDigits rest
    return ((negative, digits), rest)
  | cs => some ((false, []), cs)

/-- Split a spelling into its parts, if it is that of a number. -/
def numberParts? (spelling : List Char) : Option NumberParts := do
  let (negative, rest) := takeMinus spelling
  let (whole, rest) ← takeWhole rest
  let (fraction, rest) ← takeFraction rest
  let ((exponentNegative, exponent), rest) ← takeExponent rest
  if rest.isEmpty then
    return ⟨negative, whole, fraction, exponentNegative, exponent,
      !fraction.isEmpty || !exponent.isEmpty⟩
  else none

/-- The value of a digit. -/
def digitValue (c : Char) : Nat := c.toNat - '0'.toNat

/-- The number spelled by decimal digits. -/
def digitsValue (digits : List Char) : Nat := digits.foldl (fun n c => n * 10 + digitValue c) 0

/-- The natural number spelled by digits alone. -/
def nat? (spelling : List Char) : Option Nat := do
  let parts ← numberParts? spelling
  if parts.negative || parts.isDecimal then none else return digitsValue parts.whole

/-- The spelling of a natural number. -/
def natSpelling (n : Nat) : List Char := Decimal.natDigits n

/-! ## Doubles -/

/-- Largest significand that is kept. -/
def maxSignificand : Nat := UInt64.size - 1

/-- Append digits to a significand as long as it stays in range; the digits
from the first that does not fit on are left over. -/
def absorb : Nat → List Char → Nat × List Char
  | s, [] => (s, [])
  | s, c :: rest =>
    let next := s * 10 + digitValue c
    if next ≤ maxSignificand then absorb next rest else (s, c :: rest)

/-- Greatest power of ten that is a double. -/
def maxPower : Nat := 308

def powerOfTen (k : Nat) : Float := Float.ofScientific 1 false k

/-- Divide by a power of ten, in steps that stay within the doubles. -/
def scaleDown (f : Float) (k : Nat) : Float :=
  if k ≤ maxPower then f / powerOfTen k
  else if f == 0.0 then f
  else scaleDown (f / powerOfTen maxPower) (k - maxPower)
termination_by k
decreasing_by simp_all [maxPower]; omega

/-- Multiply by a power of ten, unless the result is not finite. -/
def scaleUp? (f : Float) (k : Nat) : Option Float :=
  if k ≤ maxPower then
    let r := f * powerOfTen k
    if r.isInf then none else some r
  else if f == 0.0 then some f
  else none

/-- The double spelled by a number. -/
def float? (spelling : List Char) : Option Float := do
  let parts ← numberParts? spelling
  let (s, dropped) := absorb 0 parts.whole
  let (s, unread) := absorb s parts.fraction
  let written : Int := digitsValue parts.exponent
  let exponent : Int := (if parts.exponentNegative then -written else written) + dropped.length -
    (parts.fraction.length - unread.length : Nat)
  let f := s.toUInt64.toFloat
  let magnitude ← if exponent < 0 then some (scaleDown f (-exponent).toNat)
    else scaleUp? f exponent.toNat
  return if parts.negative then -magnitude else magnitude

/-- Doubles are written positionally from `0.00001` to below `10 ^ 16`; an
exponent carries its sign either way. -/
def numberLayout : Decimal.Layout where
  positional := some (-5, 15)
  wholePoint := true
  exponentPlus := true
  tie := .toEven
  nan := "null"
  infinity := "null"

end CircuitSynthesis.Json
