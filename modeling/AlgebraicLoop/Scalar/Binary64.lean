import AlgebraicLoop.Scalar

/-!
# Binary64 numbers

`Float` with its own arithmetic, each operation rounded once.

* `fusedMulAdd`: a product and a sum with a single rounding, computed on integers.
-/

namespace AlgebraicLoop
set_option autoImplicit false

/-- Is the sign bit set? A zero and a NaN have one too. -/
def signBit (x : Float) : Bool := x.toBits >>> 63 == 1

open Float.Model (UnpackedFloat) in
/-- The product of the first two numbers plus the third, rounded once: both are written as integers
over the same power of two, and the exact sum is rounded. -/
def fusedMulAdd (x y z : Float) : Float :=
  match x.toModel.unpack, y.toModel.unpack, z.toModel.unpack with
  | .finite s m e _, .finite t k f _, .finite u l g _ =>
    let low := min (e + f) g
    let product := (UnpackedFloat.decreaseExponent (m * k) (e + f) low).1
    let addend := (UnpackedFloat.decreaseExponent l g low).1
    .ofModel (.pack (.normalize .binary64 ((s * t).apply product + u.apply addend) low .positive))
  | .finite .., .finite .., .infinity _ => z
  | .finite .., .finite .., .zero _ => x * y
  | _, _, _ => x * y + z

instance : Scalar Float where
  ofNat := Float.ofNat
  mulAdd := fusedMulAdd
  abs := Float.abs
  sqrt := Float.sqrt
  copySign magnitude sign := if signBit sign then -magnitude.abs else magnitude.abs
  isFinite := Float.isFinite
  infinity := Float.ofBits 0x7FF0000000000000
  roundoff := Float.ofBits 0x3CB0000000000000
  leastNormal := Float.ofBits 0x0010000000000000
  greatest := Float.ofBits 0x7FEFFFFFFFFFFFFF
  decideLT := Float.decLt
  decideLE := Float.decLe

end AlgebraicLoop
