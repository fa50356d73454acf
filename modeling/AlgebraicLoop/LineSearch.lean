import AlgebraicLoop.Merit
import AlgebraicLoop.Session

/-!
# Line search

Along a step the search tries the full length first, then ever shorter parts, until the merit has
come down by a part of what its slope promised. A point where the residual is undefined halves the
length; a point that is not good enough shortens it to the minimum of a parabola, but to no less
than a tenth and no more than a half.

* `lineSearch`: the first acceptable point along a step.
-/

namespace AlgebraicLoop
set_option autoImplicit false

/-- An accepted point: the part of the step that was taken, the point and its residual. -/
structure Accepted (α : Type) (n : Nat) where
  damping : α
  x : Vector α n
  f : Vector α n

section
variable {α σ : Type} [Scalar α] {n : Nat}

/-- The part of the promised decrease of the merit that is asked for. -/
def sufficientDecrease : α := 1e-4

/-- The point reached by a part of a step. -/
def along (x step : Vector α n) (damping : α) : Vector α n :=
  x.zipWith (fun y p => y + damping * p) step

/-- Has the merit come down enough from `start` to `now`? -/
def decreasesEnough (start now slope damping : α) : Bool :=
  now ≤ start + sufficientDecrease * damping * slope

/-- The minimum of the parabola with the merits `start` at zero and `now` at `damping`, and the
given slope at zero; half of `damping` when it has none ahead. -/
def parabolaMinimum (start now slope damping : α) : α :=
  let curvature := (now - start - slope * damping) / (damping * damping)
  if slope < 0 ∧ curvature > 0 then -slope / (2 * curvature) else 0.5 * damping

/-- The next, shorter part of the step; `none` when its limits are not in order. -/
def shorten? (start now slope damping : α) : Option α :=
  clamp? (parabolaMinimum start now slope damping) (0.1 * damping) (0.5 * damping)

/-- At most `budget` more trials along a step, beginning with the part `damping`. -/
def backtrack (P : Problem α σ n) (x step scale : Vector α n) (start slope leastDamping : α) :
    (budget : Nat) → (damping : α) → Action α σ n (Except FailureReason (Accepted α n))
  | 0, _ => pure (.error .lineSearch)
  | budget + 1, damping => do
    if damping < leastDamping then pure (.error .stepTooSmall)
    else
      let y := along x step damping
      match ← evaluate P y with
      | .error _ => backtrack P x step scale start slope leastDamping budget (damping * 0.5)
      | .ok g =>
        let now := merit g scale
        if decreasesEnough start now slope damping then pure (.ok ⟨damping, y, g⟩)
        else
          match shorten? start now slope damping with
          | some next => backtrack P x step scale start slope leastDamping budget next
          | none => throw .limitsOutOfOrder

/-- The slope that a decrease is asked from: no slope at all when the step does not point
downhill. -/
def downhillSlope (J : Mat α n n) (f scale step : Vector α n) : α :=
  let slope := meritSlope J f scale step
  if slope ≥ 0 ∨ !isFinite slope then 0 else slope

/-- The first acceptable point along a step of the given relative length, from `x` with residual
`f`. -/
def lineSearch (P : Problem α σ n) (x f step : Vector α n) (length stepTolerance : α) :
    Action α σ n (Except FailureReason (Accepted α n)) := do
  let w := (← get).work
  if length == 0 then pure (.error .stepTooSmall)
  else
    backtrack P x step w.residualScale (merit f w.residualScale)
      (downhillSlope w.jacobian f w.residualScale step) (stepTolerance / length)
      (P.options.maxBacktracks + 1) 1

end

end AlgebraicLoop
