import AlgebraicLoop.Linear.Elimination
import AlgebraicLoop.Options

/-!
# Scale factors

Unknowns are divided by their typical magnitude, residuals by the greatest change that an unknown of
typical size can make in them.

* `variableScales`: the scales of the unknowns;
* `rowScales`, `manualScales`: the raw scales of the residuals;
* `clampScale`: a raw scale confined to the allowed range;
* `scaledCondition`: the condition number of the scaled Jacobian.
-/

namespace AlgebraicLoop
set_option autoImplicit false

section
variable {α : Type} [Scalar α] {n : Nat}

/-- The scale of a magnitude: its inverse, where no magnitude counts as less than `least`. -/
def magnitudeScale (magnitude least : α) : α := 1 / larger (abs magnitude) least

/-- The scales of the unknowns. -/
def variableScales (mode : VariableScaling α) (nominal : Vector α n) (tolerance : α) :
    Vector α n :=
  match mode with
  | .none => Vector.replicate n 1
  | .nominal => nominal.map fun x => magnitudeScale x tolerance
  | .manual magnitudes =>
    nominal.mapIdx fun j x => magnitudeScale (magnitudes[j]?.getD x) tolerance

/-- The size by which a column is weighted: of the nominal value, the current value and the
tolerance the greatest. -/
def columnWeights (nominal x : Vector α n) (tolerance : α) : Vector α n :=
  nominal.zipWith (fun nom y => larger (larger (abs nom) (abs y)) tolerance) x

/-- The inverse of the greatest weighted entry of each row. -/
def rowScales {m : Nat} (J : Mat α m n) (nominal x : Vector α n) (tolerance : α) : Vector α m :=
  let weights := columnWeights nominal x tolerance
  J.map fun row => 1 / maxNorm (row.zipWith (fun a w => abs a * w) weights)

/-- Raw scales with the model's own residual magnitudes put in. A zero magnitude is not known: its
scale is one, or stays as it was when `keepUnknown` is set. -/
def manualScales (raw nominal : Vector α n) (keepUnknown : Bool) : Vector α n :=
  raw.zipWith
    (fun r x => if !(x == 0) then 1 / abs x else if keepUnknown then r else 1) nominal

/-- A raw scale confined to a range, and whether it had to be changed. A NaN becomes one. -/
def clampScale (raw least greatest : α) : α × Bool :=
  if isNaN raw then (1, true)
  else if raw < least then (least, true)
  else if raw > greatest then (greatest, true)
  else (raw, false)

/-- The condition number of the Jacobian with scaled residuals and unknowns; infinite when the
scaled matrix cannot be factored. -/
def scaledCondition (J : Mat α n n) (residualScale variableScale : Vector α n) : α :=
  let scaled : Mat α n n := J.zipWith
    (fun row w => row.zipWith (fun a d => w * a / d) variableScale) residualScale
  match LU.factor scaled with
  | .ok lu =>
    let reciprocal := lu.reciprocalCondition
    if reciprocal > 0 then 1 / reciprocal else infinity
  | .error _ => infinity

end

end AlgebraicLoop
