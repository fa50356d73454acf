/-!
# Decimal digits of binary64 numbers

A finite binary64 number is `significand · 2^exponent`; everything here is exact arithmetic on these
two. The reals that are rounded to the number form an interval around it, whose ends belong to it
exactly when the significand is even.

* `Dyadic.shortest`: the shortest decimal in that interval, and of those the nearest;
* `Dyadic.roundTo`: the value rounded to a given number of digits;
* `Dyadic.roundPlaces`: the value rounded to a given number of places after the point.
-/

namespace AlgebraicLoop
set_option autoImplicit false

/-- A finite non-negative binary64 number, `significand · 2^exponent`. -/
structure Dyadic where
  significand : Nat
  exponent : Int
  /-- The next number below is half as far away as the next number above. -/
  narrowBelow : Bool
  deriving Repr, DecidableEq

/-- The decimal number `digits · 10^exponent`. -/
structure Decimal where
  digits : Nat
  exponent : Int
  deriving Repr, DecidableEq

/-- Where a value half-way between two neighbours goes. -/
inductive Tie where
  | toEven
  | up
  deriving Repr, DecidableEq

/-- The quotient `num / den` rounded to the nearest integer. -/
def roundQuotient (num den : Nat) (tie : Tie) : Nat :=
  let low := num / den
  match compare (2 * (num % den)) den, tie with
  | .lt, _ => low
  | .gt, _ => low + 1
  | .eq, .up => low + 1
  | .eq, .toEven => if low % 2 = 0 then low else low + 1

namespace Dyadic

/-- The absolute value of the finite number with these bits. -/
def ofBits (bits : UInt64) : Dyadic :=
  let biased := ((bits >>> 52) &&& 0x7FF).toNat
  let fraction := (bits &&& 0xFFFFFFFFFFFFF).toNat
  if biased = 0 then ⟨fraction, -1074, false⟩
  else ⟨Nat.pow 2 52 + fraction, (biased : Int) - 1075, fraction = 0 ∧ 1 < biased⟩

/-- The value times `10^(-place)`, as a fraction of two naturals. -/
def scaled (x : Dyadic) (place : Int) : Nat × Nat :=
  (x.significand * Nat.pow 2 x.exponent.toNat * Nat.pow 10 (-place).toNat,
    Nat.pow 2 (-x.exponent).toNat * Nat.pow 10 place.toNat)

/-- The order of `a · 10^i` and `b · 2^j`. -/
def compareScaled (a : Nat) (i : Int) (b : Nat) (j : Int) : Ordering :=
  compare (a * Nat.pow 10 i.toNat * Nat.pow 2 (-j).toNat)
    (b * Nat.pow 2 j.toNat * Nat.pow 10 (-i).toNat)

/-- Does the decimal lie in the interval of the reals that are rounded to this number? -/
def readsBack (x : Dyadic) (d : Decimal) : Bool :=
  let low := if x.narrowBelow then 4 * x.significand - 1 else 4 * x.significand - 2
  let high := 4 * x.significand + 2
  let closed := x.significand % 2 = 0
  let below := compareScaled d.digits d.exponent low (x.exponent - 2)
  let above := compareScaled d.digits d.exponent high (x.exponent - 2)
  (below = .gt ∨ (closed ∧ below = .eq)) ∧ (above = .lt ∨ (closed ∧ above = .eq))

/-- The place just above the leading digit: the least `k` with value below `10^k`. The search
starts from an estimate that is never too high and makes a few steps. -/
def magnitude (x : Dyadic) : Int :=
  let estimate := ((x.significand.log2 : Int) + x.exponent) * 30103 / 100000 - 1
  let below (k : Int) : Bool := let (num, den) := x.scaled k; num < den
  match [0, 1, 2, 3].find? fun step : Nat => below (estimate + step) with
  | some step => estimate + step
  | none => estimate + 4

/-- The decimal on the grid `10^place` that reads back and is nearest; a tie goes up. -/
def onGrid? (x : Dyadic) (place : Int) : Option Decimal :=
  let (num, den) := x.scaled place
  let low : Decimal := ⟨num / den, place⟩
  let high : Decimal := ⟨num / den + 1, place⟩
  match x.readsBack low, x.readsBack high with
  | true, true => some (if roundQuotient num den .up = low.digits then low else high)
  | true, false => some low
  | false, true => some high
  | false, false => none

/-- The exact value as a decimal. -/
def exact (x : Dyadic) : Decimal :=
  ⟨x.significand * Nat.pow 2 x.exponent.toNat * Nat.pow 5 (-x.exponent).toNat, min x.exponent 0⟩

/-- The shortest decimal that reads back, nearest of its length; a tie goes up. -/
def shortest (x : Dyadic) : Decimal :=
  if x.significand = 0 then ⟨0, 0⟩
  else
    let top := x.magnitude
    ((List.range 17).findSome? fun n => x.onGrid? (top - (n + 1 : Nat))).getD x.exact

/-- The value rounded to `count` digits, ties to even. -/
def roundTo (x : Dyadic) (count : Nat) : Decimal :=
  if x.significand = 0 then ⟨0, 0⟩
  else
    let place := x.magnitude - count
    let (num, den) := x.scaled place
    let digits := roundQuotient num den .toEven
    if digits = Nat.pow 10 count then ⟨Nat.pow 10 (count - 1), place + 1⟩ else ⟨digits, place⟩

/-- The value in units of `10^(-places)`, rounded, ties to even. -/
def roundPlaces (x : Dyadic) (places : Nat) : Nat :=
  let (num, den) := x.scaled (-(places : Int))
  roundQuotient num den .toEven

end Dyadic

end AlgebraicLoop
