import CircuitSynthesis.Binary64

/-!
# Shortest decimals

`Decimal.shortest` finds the fewest decimal digits that still single out a
double: some decimal of that length lies closer to it than to any other
double, and of those the nearest is taken. The search tries the two
neighbours of the value on ever finer decimal grids, in exact arithmetic.
-/

namespace CircuitSynthesis

/-- Which neighbour a value exactly between two grid points goes to. -/
inductive Decimal.Tie where
  | up
  | toEven
  deriving DecidableEq, Repr

/-- The positive decimal `0.d₁d₂… * 10 ^ point`. -/
structure Decimal where
  digits : List Char
  point : Int
  deriving DecidableEq, Repr

namespace Decimal

/-- Decimal digits of `n`, most significant first. -/
def natDigits (n : Nat) : List Char := Nat.toDigits 10 n

/-- The fraction `numerator / denominator` and the ends of the interval of
reals that round to the same double, over the same denominator. -/
structure Target where
  numerator : Nat
  low : Nat
  high : Nat
  denominator : Nat
  /-- The ends of the interval belong to it. -/
  closed : Bool

/-- The double `m * 2 ^ q` with its rounding interval. Below a power of two
the neighbouring double is only half as far away. -/
def Target.ofScaled (m : Nat) (q : Int) : Target :=
  let below := if m = 2 ^ Binary64.fractionBits ∧ Binary64.leastExponent < q then 1 else 2
  let up := 2 ^ (q - 2).toNat
  { numerator := 4 * m * up
    low := (4 * m - below) * up
    high := (4 * m + 2) * up
    denominator := 2 ^ (2 - q).toNat
    closed := m % 2 = 0 }

/-- The target measured in units of `10 ^ g`. -/
def Target.inUnits (t : Target) (g : Int) : Target :=
  let up := 10 ^ (-g).toNat
  { t with
    numerator := t.numerator * up
    low := t.low * up
    high := t.high * up
    denominator := t.denominator * 10 ^ g.toNat }

/-- The natural number `c` lies in the interval. -/
def Target.admits (t : Target) (c : Nat) : Bool :=
  let v := c * t.denominator
  if t.closed then t.low ≤ v && v ≤ t.high else t.low < v && v < t.high

/-- The natural number nearest to the target among its two neighbours that
lie in the interval. -/
def Target.nearest? (t : Target) (tie : Tie) : Option Nat :=
  let c := t.numerator / t.denominator
  let twiceRest := 2 * (t.numerator % t.denominator)
  match t.admits c, t.admits (c + 1) with
  | true, true =>
    if twiceRest < t.denominator then some c
    else if t.denominator < twiceRest then some (c + 1)
    else match tie with
      | .up => some (c + 1)
      | .toEven => some (c + c % 2)
  | true, false => some c
  | false, true => some (c + 1)
  | false, false => none

/-- The power of ten just above the target: `10 ^ (k - 1) ≤ t < 10 ^ k`. -/
def Target.point (t : Target) : Int :=
  let k := ((natDigits t.numerator).length : Int) - (natDigits t.denominator).length
  if t.numerator * 10 ^ (-k).toNat < t.denominator * 10 ^ k.toNat then k else k + 1

/-- The decimal `c * 10 ^ g`, without trailing zeros. -/
def ofScaled (c : Nat) (g : Int) : Decimal :=
  let digits := natDigits c
  { digits := (digits.reverse.dropWhile (· == '0')).reverse
    point := digits.length + g }

/-- Most significant digits a double can need. -/
def maxDigits : Nat := 17

/-- The shortest decimal for the double `m * 2 ^ q`, where `0 < m`. -/
def shortest (tie : Tie) (m : Nat) (q : Int) : Decimal :=
  let t := Target.ofScaled m q
  let point := t.point
  let hit := (List.range' 1 maxDigits).findSome? fun (count : Nat) =>
    let g : Int := point - count
    ((t.inUnits g).nearest? tie).map (ofScaled · g)
  hit.getD ⟨['0'], 0⟩

end Decimal

end CircuitSynthesis
