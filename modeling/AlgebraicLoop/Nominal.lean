import AlgebraicLoop.Indexing
import AlgebraicLoop.Scalar

/-!
# Nominal values

The nominal value of an unknown is its typical magnitude. One that the model did not give, or that
lies outside the bounds, is replaced: by the initial guess if that lies inside, else by a point of
the interval. It is also where a solve starts again when its guess failed.

* `repairNominal`: the nominal value that is used for an unknown;
* `nominalGuess?`: the starting point taken from the nominal values.
-/

namespace AlgebraicLoop
set_option autoImplicit false

section
variable {α : Type} [Scalar α]

/-- A point of a two-sided interval: the middle, or one percent of the upper end when the interval
is nearly symmetric about zero. -/
def intervalNominal (lower upper : α) : α :=
  let middle := 0.5 * (lower + upper)
  if lower * upper < 0 ∧ abs middle < 1e-2 * upper then 1e-2 * upper else middle

/-- A point just above a lower bound. -/
def nominalAbove (lower : α) : α :=
  if lower == 0 then 1
  else if lower > 0 then lower * (1 + roundoff)
  else lower * (1 - roundoff)

/-- A point just below an upper bound. -/
def nominalBelow (upper : α) : α :=
  if upper == 0 then -1
  else if upper > 0 then upper * (1 - roundoff)
  else upper * (1 + roundoff)

/-- Can the nominal value be used as it is? The greatest finite number marks a missing one. -/
def nominalUsable (nominal lower upper : α) : Bool :=
  !(nominal == greatest) && isFinite nominal && decide (lower ≤ nominal) &&
    decide (nominal ≤ upper)

/-- The nominal value to use for an unknown. -/
def repairNominal (nominal lower upper initial : α) : α :=
  if nominalUsable nominal lower upper then nominal
  else if lower < initial ∧ initial < upper ∧ !(initial == 0) then initial
  else if isFinite lower then
    if isFinite upper then intervalNominal lower upper else nominalAbove lower
  else if isFinite upper then nominalBelow upper
  else 1

/-- A starting value from a nominal value: its opposite when it is above the upper bound, confined
to the bounds when `confine` is set. -/
def nominalStart? (nominal lower upper : α) (confine : Bool) : Option α :=
  let guess := if nominal ≤ upper then nominal else -nominal
  if confine then clamp? guess lower upper else some guess

/-- The starting point from the nominal values; `none` when bounds to confine to are not in
order. -/
def nominalGuess? {n : Nat} (nominal lower upper : Vector α n) (confine : Bool) :
    Option (Vector α n) :=
  (Vector.ofFn fun i => (nominal[i], lower[i], upper[i])).mapM fun (x, low, high) =>
    nominalStart? x low high confine

end

end AlgebraicLoop
