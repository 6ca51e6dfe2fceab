import CircuitSynthesis.Decimal.Layout
import CircuitSynthesis.Hypotenuse

/-!
# Angles

An angle is an exact number of eighth turns or a floating number of radians.
Exact angles form the cyclic group of order eight under addition; as soon as
one summand is in radians, so is the sum.
-/

namespace CircuitSynthesis

/-- A rotation angle. -/
inductive Angle where
  /-- A number of eighth turns. -/
  | turn (eighths : Fin 8)
  /-- A number of radians. -/
  | radians (value : Float)
  deriving DecidableEq

namespace Angle

/-- The double nearest to a quarter of π. -/
def quarterPi : Float := Float.ofBits 0x3fe921fb54442d18

/-- The exact angle of `k` eighth turns. -/
def ofEighths (k : Nat) : Angle := .turn (Fin.ofNat 8 k)

/-- The number of eighth turns of an exact angle. -/
def eighths : Angle → Fin 8
  | .turn k => k
  | .radians _ => 0

instance : Zero Angle := ⟨.turn 0⟩

instance : Inhabited Angle := ⟨0⟩

def isExact : Angle → Bool
  | .turn _ => true
  | .radians _ => false

/-- The angle in radians. -/
def toRadians : Angle → Float
  | .turn k => Float.ofNat k * quarterPi
  | .radians x => x

/-- Neither sign of zero turns anything. -/
def isZero : Angle → Bool
  | .turn k => k == 0
  | .radians x => x == 0.0

protected def add : Angle → Angle → Angle
  | .turn j, .turn k => .turn (j + k)
  | a, b => .radians (a.toRadians + b.toRadians)

protected def neg : Angle → Angle
  | .turn k => .turn (-k)
  | .radians x => .radians (-x)

instance : Add Angle := ⟨Angle.add⟩

instance : Neg Angle := ⟨Angle.neg⟩

instance : Sub Angle := ⟨fun a b => a + -b⟩

/-- The sum of a list, from left to right. -/
def sum (angles : List Angle) : Angle := angles.foldl (· + ·) 0

/-- Equality of values: a NaN differs from itself and the two zeros agree. -/
def same : Angle → Angle → Bool
  | .turn j, .turn k => j == k
  | .radians x, .radians y => x == y
  | _, _ => false

/-- The point of the unit circle at the angle, as `(cos, sin)`. -/
def unitVector (a : Angle) : Float × Float := (a.toRadians.cos, a.toRadians.sin)

/-- Exact angles are close when they are equal; otherwise when their points
on the unit circle are at most `tolerance` apart. -/
def closeTo (tolerance : Float) : Angle → Angle → Bool
  | .turn j, .turn k => j == k
  | a, b =>
    let (ca, sa) := a.unitVector
    let (cb, sb) := b.unitVector
    Hypotenuse.length (ca - cb) (sa - sb) ≤ tolerance

/-- Distance on the unit circle up to which rotations count as inverse. -/
def defaultTolerance : Float := 1e-10

/-- Radians are written positionally with the fewest digits that read back. -/
def layout : Decimal.Layout where
  positional := none
  wholePoint := false
  exponentPlus := false
  tie := .up
  nan := "NaN"
  infinity := "inf"

/-- Exact angles are written as fractions of π. -/
def text : Angle → String
  | .turn 0 => "0"
  | .turn 1 => "π/4"
  | .turn 2 => "π/2"
  | .turn 3 => "3π/4"
  | .turn 4 => "π"
  | .turn 5 => "5π/4"
  | .turn 6 => "3π/2"
  | .turn 7 => "7π/4"
  | .radians x => layout.text x

@[simp] theorem turn_add_turn (j k : Fin 8) : turn j + turn k = turn (j + k) := rfl

theorem isExact_iff {a : Angle} : a.isExact = true ↔ ∃ k, a = turn k := by
  cases a <;> simp [isExact]

end Angle

end CircuitSynthesis
