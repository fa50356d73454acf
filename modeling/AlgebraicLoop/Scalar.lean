/-!
# Numbers a loop is solved with

`Scalar α` lists the operations the solver performs on numbers and nothing else: it has no laws, so
the same definitions run on binary64 (`Scalar.Binary64`) and can be read over exact numbers.

* `larger`, `smaller`: the greater and the lesser of two numbers, where a NaN loses to a number;
* `signum`: one with the sign of a number, zero included;
* `clamp?`: confinement between two limits, refused when the limits are out of order.
-/

namespace AlgebraicLoop
set_option autoImplicit false

/-- The operations on numbers that the solver uses. -/
class Scalar (α : Type) extends Add α, Sub α, Mul α, Div α, Neg α, LT α, LE α, BEq α,
    OfScientific α where
  /-- A natural number. -/
  ofNat : Nat → α
  /-- The product of the first two numbers plus the third, rounded once. -/
  mulAdd : α → α → α → α
  /-- The absolute value. -/
  abs : α → α
  /-- The square root. -/
  sqrt : α → α
  /-- The first number's absolute value with the second number's sign. -/
  copySign : α → α → α
  /-- Neither infinite nor NaN. -/
  isFinite : α → Bool
  /-- The positive infinity. -/
  infinity : α
  /-- The distance from one to the next number above it. -/
  roundoff : α
  /-- The least positive number of full precision. -/
  leastNormal : α
  /-- The greatest finite number. -/
  greatest : α
  /-- The strict order is decidable. -/
  decideLT : DecidableLT α
  /-- The order is decidable. -/
  decideLE : DecidableLE α

attribute [reducible, instance] Scalar.decideLT Scalar.decideLE

instance (priority := low) Scalar.instOfNat {α : Type} [Scalar α] (k : Nat) : OfNat α k :=
  ⟨Scalar.ofNat k⟩

export Scalar (mulAdd abs sqrt copySign isFinite infinity roundoff leastNormal greatest)

section
variable {α : Type} [Scalar α]

/-- A NaN is the number that differs from itself. -/
def isNaN (x : α) : Bool := !(x == x)

/-- The greater of two numbers; a NaN loses to a number. -/
def larger (x y : α) : α := if isNaN x ∨ x < y then y else x

/-- The lesser of two numbers; a NaN loses to a number. -/
def smaller (x y : α) : α := if isNaN y ∨ x < y then x else y

/-- One with the sign of `x`, also for the two zeros; a NaN is kept. -/
def signum (x : α) : α := if isNaN x then x else copySign 1 x

/-- The square, as a product. -/
def square (x : α) : α := x * x

/-- `x` confined between `low` and `high`; `none` unless `low ≤ high`. -/
def clamp? (x low high : α) : Option α :=
  if low ≤ high then
    some (if x < low then low else if x > high then high else x)
  else
    none

end

end AlgebraicLoop
