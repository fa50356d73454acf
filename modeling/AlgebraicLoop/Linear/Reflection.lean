import AlgebraicLoop.Linear.Basic

/-!
# Reflections

A reflection is `I - v vᵀ / c` for a vector `v` and a divisor `c`; with `c` half the squared length
of `v` it turns `v` around and leaves what is orthogonal to `v` as it is.

* `safeLength`, `joinedLength`: Euclidean lengths, scaled where squares would overflow or vanish;
* `Reflection.toward`: the reflection that clears a vector behind a place;
* `Reflection.applyColumns`, `Reflection.applyRows`: the products `H A` and `A H`.
-/

namespace AlgebraicLoop
set_option autoImplicit false

section
variable {α : Type} [Scalar α] {n : Nat}

/-- The sum of squares of the entries, each multiplied by `c` first. -/
def squareSum (c : α) (v : Vector α n) : α := total (v.map fun x => square (x * c))

/-- The Euclidean length. Entries are shrunk before they are squared when the shrunk length is at
least one, and stretched when the stretched length is at most one. -/
def safeLength (v : Vector α n) : α :=
  let small := sqrt leastNormal
  let great := 1 / small
  let shrunk := squareSum small v
  let stretched := squareSum great v
  if shrunk ≥ 1 then sqrt shrunk * great
  else if stretched ≤ 1 then sqrt stretched * small
  else sqrt (squareSum 1 v)

/-- The length of a vector whose two orthogonal parts have lengths `x` and `y`, taken relative to
the longer one where the sum of squares overflows or is too small to be precise. -/
def joinedLength (x y : α) : α :=
  let squares := square x + square y
  if isFinite squares ∧ squares * roundoff ≥ leastNormal then sqrt squares
  else
    let (long, short) := if x < y then (y, x) else (x, y)
    if long == 0 then short else long * sqrt (1 + square (short / long))

/-- The map `I - v vᵀ / c`. -/
structure Reflection (α : Type) (n : Nat) where
  vector : Vector α n
  divisor : α

namespace Reflection

/-- The reflection that leaves the entries of `x` before place `k` as they are and clears those
behind it, with the entry it brings to place `k`. Entries below full precision count as zero; where
nothing is left to clear, the divisor is infinite and the map the identity. -/
def toward (x : Vector α n) (k : Fin n) : Reflection α n × α :=
  let tail := Vector.ofFn fun i => if k < i then x[i] else 0
  let tailLength := safeLength tail
  let head := if abs x[k] < leastNormal then 0 else x[k]
  if tailLength < leastNormal then
    (⟨tail.set k 1 k.isLt, infinity⟩, head)
  else
    let length := joinedLength (abs head) tailLength
    let side := if head == 0 then 1 else head * (1 / abs head)
    let inverse := 1 / (head + side * length)
    let divisor := (1 + square (tailLength * abs inverse)) / 2
    (⟨(tail.map (· * inverse)).set k 1 k.isLt, divisor⟩, -(side * length))

/-- The image of a vector. -/
def apply (h : Reflection α n) (x : Vector α n) : Vector α n :=
  let c := -(dot h.vector x * (1 / h.divisor))
  x.zipWith (fun x v => mulAdd c v x) h.vector

/-- The image of a vector under the last reflection of a list, then under the one before it, and so
on. -/
def applyAll (hs : List (Reflection α n)) (x : Vector α n) : Vector α n :=
  hs.foldr (fun h x => h.apply x) x

/-- The product `A H`. -/
def applyRows {m : Nat} (h : Reflection α n) (A : Mat α m n) : Mat α m n := A.map h.apply

/-- The product `H A`. -/
def applyColumns {m : Nat} (h : Reflection α n) (A : Mat α n m) : Mat α n m :=
  (h.applyRows A.transpose).transpose

end Reflection

end

end AlgebraicLoop
