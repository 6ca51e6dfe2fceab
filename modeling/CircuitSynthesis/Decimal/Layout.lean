import CircuitSynthesis.Decimal.Shortest

/-!
# Number layouts

A layout settles everything about the text of a double that its shortest
digits leave open: when an exponent is written and how, whether a whole
number keeps a point, and what stands for the values that have no digits.
-/

namespace CircuitSynthesis.Decimal

/-- How a double is written. -/
structure Layout where
  /-- Least and greatest exponent of the leading digit that is still written
  without an exponent; `none` never writes one. -/
  positional : Option (Int × Int)
  /-- Whole numbers end in `.0`. -/
  wholePoint : Bool
  /-- Exponents that are not negative carry a plus sign. -/
  exponentPlus : Bool
  tie : Tie
  nan : String
  infinity : String

/-- The digits with the point in its place and zeros where none are known. -/
def positionalText (whole : Bool) (d : Decimal) : String :=
  let count := d.digits.length
  let zeros (n : Int) : List Char := List.replicate n.toNat '0'
  if d.point ≤ 0 then
    String.ofList ('0' :: '.' :: zeros (-d.point) ++ d.digits)
  else if (count : Int) ≤ d.point then
    String.ofList (d.digits ++ zeros (d.point - count)) ++ (if whole then ".0" else "")
  else
    let (before, after) := d.digits.splitAt d.point.toNat
    String.ofList (before ++ '.' :: after)

/-- One digit before the point, then the exponent in as few digits as it has. -/
def scientificText (l : Layout) (d : Decimal) : String :=
  let exponent := d.point - 1
  let sign := if exponent < 0 then "-" else if l.exponentPlus then "+" else ""
  let mantissa := match d.digits with
    | [] => []
    | [c] => [c]
    | c :: rest => c :: '.' :: rest
  String.ofList mantissa ++ "e" ++ sign ++ String.ofList (natDigits exponent.natAbs)

/-- Write a positive decimal. -/
def Layout.decimal (l : Layout) (d : Decimal) : String :=
  match l.positional with
  | none => positionalText l.wholePoint d
  | some (least, greatest) =>
    if least ≤ d.point - 1 && d.point - 1 ≤ greatest then positionalText l.wholePoint d
    else scientificText l d

/-- Write a double. -/
def Layout.text (l : Layout) (x : Float) : String :=
  let sign := if Binary64.isNegative x then "-" else ""
  match Binary64.magnitude? x with
  | none => if x.isNaN then l.nan else sign ++ l.infinity
  | some (0, _) => sign ++ (if l.wholePoint then "0.0" else "0")
  | some (m, q) => sign ++ l.decimal (shortest l.tie m q)

end CircuitSynthesis.Decimal
