import AlgebraicLoop.Linear.Basic

/-!
# Measuring residuals and steps

With residual scales `W` the merit of a point is `½ ‖W F‖²`; a step `p` changes it at the rate
`(W² F) · (J p)`.

* `scaledNorm`, `merit`, `meritSlope`: size of a residual, merit, its rate of change along a step;
* `steepestDescent?`: the step against the gradient of the merit;
* `relativeLength`, `scaledLength`: the length of a step beside the unknowns or their scales.
-/

namespace AlgebraicLoop
set_option autoImplicit false

section
variable {α : Type} [Scalar α] {n : Nat}

/-- The greatest scaled residual. -/
def scaledNorm (f scale : Vector α n) : α := maxNorm (f.zipWith (· * ·) scale)

/-- Half the sum of the squared scaled residuals. -/
def merit (f scale : Vector α n) : α :=
  0.5 * total (f.zipWith (fun y w => square (y * w)) scale)

/-- The rate of change of the merit along a step. -/
def meritSlope (J : Mat α n n) (f scale step : Vector α n) : α :=
  dot (scale.zipWith (fun w y => w * w * y) f) (J.apply step)

/-- The step against the gradient `g` of the merit, of length `‖W F‖² / ‖g‖`; `none` when the
gradient vanishes or is not finite. -/
def steepestDescent? (J : Mat α n n) (f scale : Vector α n) : Option (Vector α n) :=
  let weighted := scale.zipWith (fun w y => -w * w * y) f
  let gradient := J.applyTranspose weighted
  let size := dot gradient gradient
  if size == 0 ∨ !isFinite size then none
  else
    let reduction := 2 * merit f scale
    some (gradient.map fun g => g * reduction / size)

/-- The greatest move of an unknown beside its own size, or its typical size where that is
greater. -/
def relativeLength (step x scale : Vector α n) : α :=
  maxNorm (step.zipWith (fun p size => abs p / size)
    (x.zipWith (fun y d => larger (abs y) (1 / d)) scale))

/-- The greatest scaled move of an unknown. -/
def scaledLength (step scale : Vector α n) : α := maxNorm (step.zipWith (· * ·) scale)

end

end AlgebraicLoop
