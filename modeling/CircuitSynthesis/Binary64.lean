/-!
# Double precision numbers as scaled integers

A finite double is `m * 2 ^ q` for a natural number `m` below `2 ^ 53`, up to
its sign. On that form its digits are a matter of exact integer arithmetic.
-/

namespace CircuitSynthesis.Binary64

-- Powers of two and ten are core's own, also where algebra offers the monoid's.
attribute [instance (high)] instPowNat

/-- Exponent of the smallest positive double. -/
def leastExponent : Int := -1074

/-- Width of the stored fraction. -/
def fractionBits : Nat := 52

/-- Width of the stored exponent. -/
def exponentBits : Nat := 11

/-- Whether the sign bit is set, zeros and NaN included. -/
def isNegative (x : Float) : Bool := x.toBits >>> 63 == 1

/-- The magnitude of a finite double as `(m, q)`, meaning `m * 2 ^ q`. -/
def magnitude? (x : Float) : Option (Nat × Int) :=
  let bits := x.toBits.toNat
  let biased : Nat := bits / 2 ^ fractionBits % 2 ^ exponentBits
  let fraction : Nat := bits % 2 ^ fractionBits
  if biased = 0 then some (fraction, leastExponent)
  else if biased = 2047 then none
  else some (2 ^ fractionBits + fraction, (biased : Int) - 1 + leastExponent)

end CircuitSynthesis.Binary64
