import AlgebraicLoop.Linear.Basic

/-!
# Secant updates of a Jacobian

After a step `p` the residual changed from `old` to `new`. A secant update changes the Jacobian `J`
so that it maps `p` to that change, without new evaluations. Each update is `none` when it would
divide by a number that is not usable; the Jacobian is then left as it was.

* `broyden`: the least change in the norm of the scaled unknowns, of rank one;
* `sparseBroyden`: row by row, in the entries that are not zero;
* `modifiedBfgs`: a change of rank two.
-/

namespace AlgebraicLoop
set_option autoImplicit false

section
variable {α : Type} [Scalar α] {n : Nat}

/-- Can one divide by this number without losing everything? -/
def isUsable (denominator : α) : Bool :=
  isFinite denominator && decide (abs denominator > leastNormal)

/-- What the Jacobian misses of the change of the residual. An entry that is no greater than the
roundoff of the residuals counts as zero. -/
def secantDefect (J : Mat α n n) (step old new : Vector α n) : Vector α n :=
  let predicted := J.apply step
  Vector.ofFn fun i =>
    let defect := (new[i] - old[i]) - predicted[i]
    if abs defect < roundoff * (abs new[i] + abs old[i]) then 0 else defect

/-- The step weighted with the squared scales of the unknowns. -/
def weightedStep (step scale : Vector α n) : Vector α n :=
  step.zipWith (fun p d => d * d * p) scale

/-- `J + r (D² p)ᵀ / (pᵀ D² p)` for the defect `r` and the scales `D` of the unknowns. -/
def broyden (J : Mat α n n) (step old new scale : Vector α n) : Option (Mat α n n) :=
  let weighted := weightedStep step scale
  let denominator := dot weighted step
  if isUsable denominator then
    let defect := secantDefect J step old new
    some (J.zipWith
      (fun row r => row.zipWith (fun x w => x + r * (w / denominator)) weighted) defect)
  else none

/-- Row `row` changed by `r pⱼ rowⱼ² / Σₖ (pₖ rowₖ)²`; unchanged when `r` is zero or the sum not
usable. -/
def sparseRow (row step : Vector α n) (defect : α) : Vector α n :=
  let denominator := total (step.zipWith (fun p x => square (p * x)) row)
  if defect == 0 ∨ !isUsable denominator then row
  else row.zipWith (fun x p => x + defect * p * x * x / denominator) step

/-- The update of each row within its own entries. Only a zero step is refused. -/
def sparseBroyden (J : Mat α n n) (step old new : Vector α n) : Option (Mat α n n) :=
  if step.all (· == 0) then none
  else
    let defect := secantDefect J step old new
    some (J.zipWith (fun row r => sparseRow row step r) defect)

/-- `J + Δ (D² p)ᵀ / (pᵀ D² p) - (J p) (Jᵀ W² Δ)ᵀ / (Δᵀ W² J p)` for the change `Δ` of the residual,
the scales `D` of the unknowns and the scales `W` of the residuals. -/
def modifiedBfgs (J : Mat α n n) (step old new scale residualScale : Vector α n) :
    Option (Mat α n n) :=
  let change := new.zipWith (· - ·) old
  let weighted := weightedStep step scale
  let stepSize := dot weighted step
  let predicted := J.apply step
  let weightedChange := change.zipWith (fun d w => w * w * d) residualScale
  let back := J.applyTranspose weightedChange
  let curvature := dot weightedChange predicted
  if isUsable stepSize && isUsable curvature then
    some (Mat.ofFn fun i j =>
      J[i][j] + (change[i] * (weighted[j] / stepSize) - predicted[i] * (back[j] / curvature)))
  else none

end

end AlgebraicLoop
