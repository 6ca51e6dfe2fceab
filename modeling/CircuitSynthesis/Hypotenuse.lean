/-!
# The length of a plane vector

The square root of a rounded sum of squares can be off in its last place. One
Newton step repairs it, provided that the residual of the root is known better
than squaring the root again would give it. The residual is therefore
expanded around the leg that the root is close to, so that the large squares
cancel on paper and only small terms are left to compute.
-/

namespace CircuitSynthesis.Hypotenuse

/-- The residual `h * h - (a * a + b * b)` of a root `h` for legs `b ≤ a`. -/
def residual (a b h : Float) : Float :=
  if h ≤ 2 * b then
    let d := h - b
    a * (2 * d - a) + (d - 2 * (a - b)) * d
  else
    let d := h - a
    2 * d * (a - 2 * b) + ((4 * d - b) * b + d * d)

/-- The double `2 ^ (-54)`. A leg of at most this part of the other one adds
no more than half a unit in the last place. -/
def negligible : Float := Float.ofBits 0x3c90000000000000

/-- The length of the hypotenuse over legs `b ≤ a`. -/
def ofLegs (a b : Float) : Float :=
  if b ≤ a * negligible then a + b
  else
    let h := (a * a + b * b).sqrt
    h - residual a b h / (2 * h)

/-- The length of the vector `(x, y)`, for coordinates whose squares stay in
the range of doubles. -/
def length (x y : Float) : Float :=
  if x.abs < y.abs then ofLegs y.abs x.abs else ofLegs x.abs y.abs

end CircuitSynthesis.Hypotenuse
