import AlgebraicLoop.Scalar.Binary64

/-!
# Elementary functions of binary64 numbers

* `exponential`: the argument is reduced by a multiple of `ln 2`; on the interval that is left, a
  rational function of degree five in the square of the argument is used;
* `hypotenuse`: the squares are added together with their rounding errors before the root is taken.
-/

namespace AlgebraicLoop
set_option autoImplicit false

/-- The upper part of `ln 2`, with trailing zeros, so that small multiples of it are exact. -/
def lnTwoHigh : Float := Float.ofBits 0x3FE62E42FEE00000

/-- The rest of `ln 2`. -/
def lnTwoLow : Float := Float.ofBits 0x3DEA39EF35793C76

/-- The inverse of `ln 2`. -/
def lnTwoInverse : Float := Float.ofBits 0x3FF71547652B82FE

/-- The multiple of `ln 2` that is taken off `x`: none near zero, one in the next part of the line,
the nearest one farther out. -/
def lnTwoMultiple (x : Float) : Int :=
  if x.abs < Float.ofBits 0x3FD62E4300000000 then 0
  else if x.abs < Float.ofBits 0x3FF0A2B200000000 then if x < 0 then -1 else 1
  else (lnTwoInverse * x + (if x < 0 then -0.5 else 0.5)).toInt64.toInt

/-- What `r (1 + eʳ) / (eʳ - 1)` exceeds two by, as a polynomial in `t = r²`. -/
def exponentialKernel (t : Float) : Float :=
  t * (Float.ofBits 0x3FC555555555553E + t * (Float.ofBits 0xBF66C16C16BEBD93 +
    t * (Float.ofBits 0x3F11566AAF25DE2C + t * (Float.ofBits 0xBEBBBD41C5D26BF1 +
      t * Float.ofBits 0x3E66376972BEA4D0))))

/-- `e` to the power of `high - low`, where `low` is small beside `high`. -/
def exponentialNearZero (high low : Float) : Float :=
  let r := high - low
  let c := r - exponentialKernel (r * r)
  1 + (r * c / (2 - c) - low + high)

/-- The exponential function. -/
def exponential (x : Float) : Float :=
  if x.isNaN then x
  else if x > Float.ofBits 0x40862E42FEFA39EF then Float.ofBits 0x7FF0000000000000
  else if x < Float.ofBits 0xC0874910D52D3051 then 0
  else if x.abs < Float.ofBits 0x3E30000100000000 then 1 + x
  else
    let k := lnTwoMultiple x
    let times := Float.ofInt k
    (exponentialNearZero (x - times * lnTwoHigh) (times * lnTwoLow)).scaleB k

/-- The square of a number, and what was lost when it was rounded. -/
def squareWithError (x : Float) : Float × Float := (x * x, fusedMulAdd x x (-(x * x)))

/-- The square root of `x² + y²` for `x ≥ y ≥ 0` whose squares neither overflow nor vanish. -/
def hypotenuseOrdered (x y : Float) : Float :=
  let (xx, xError) := squareWithError x
  let (yy, yError) := squareWithError y
  (yError + xError + yy + xx).sqrt

/-- The square root of `x² + y²`. Very great and very small numbers are brought nearer to one by a
power of two first; a number that is negligible beside the other is just added. -/
def hypotenuse (x y : Float) : Float :=
  let (x, y) := if x.abs.toBits < y.abs.toBits then (y.abs, x.abs) else (x.abs, y.abs)
  if !y.isFinite then y
  else if !x.isFinite ∨ y == 0 then x
  else if (x.toBits >>> 52) - (y.toBits >>> 52) > 64 then x + y
  else if x ≥ Float.ofBits 0x5FE0000000000000 then
    (hypotenuseOrdered (x.scaleB (-700)) (y.scaleB (-700))).scaleB 700
  else if y < Float.ofBits 0x23D0000000000000 then
    (hypotenuseOrdered (x.scaleB 700) (y.scaleB 700)).scaleB (-700)
  else hypotenuseOrdered x y

end AlgebraicLoop
