import AlgebraicLoop.LineSearch
import AlgebraicLoop.Recovery
import AlgebraicLoop.Rescaling

/-!
# The damped iteration

One attempt repeats: prepare the Jacobian, compute a step, keep it inside the bounds, search along
it, move. The current point of the session is always the last accepted one, so an attempt that stops
short leaves the best point it reached.

* `boundedStep`: the step that is searched along;
* `runDamped`: one attempt from the current point.
-/

namespace AlgebraicLoop
set_option autoImplicit false

/-- The phase of a block that takes steps of this kind. -/
def StepKind.phase : StepKind → Phase
  | .newton => .iterating
  | .regularized => .regularizing
  | .minimumNorm => .minimumNorm
  | .steepestDescent => .steepestDescent

section
variable {α σ : Type} [Scalar α] {n : Nat}

/-- Limits a step from `x` and keeps what it did to the bounds. -/
def limitByBox (P : Problem α σ n) (x step : Vector α n) : Action α σ n (StepLimit α n) := do
  let s ← get
  let (box, limit) := s.work.box.limitStep x s.nominal step (P.options.activeRatio n)
    P.options.stepLimitFactor
  modifyWork fun w => { w with box }
  pure limit

/-- The steepest-descent step for the residual `f`, or the given step where the gradient
vanishes. -/
def descentStep (w : Workspace α n) (f step : Vector α n) : Vector α n :=
  (steepestDescent? w.jacobian f w.residualScale).getD step

/-- What follows when bounds became active: the options may ask for steepest descent when the
projected step does not point downhill. -/
def whenActive (P : Problem α σ n) (x f step : Vector α n) (kind : StepKind) :
    Action α σ n (Vector α n × StepKind) := do
  let w := (← get).work
  let downhill := decide (meritSlope w.jacobian f w.residualScale step < 0)
  if P.options.activeBounds = .steepestDescent ∧ kind ≠ .steepestDescent ∧ !downhill then do
    notify .descentForced
    let limit ← limitByBox P x (descentStep w f step)
    modifyWork fun w => { w with flags.useSteepestDescent := true }
    pure (limit.step, .steepestDescent)
  else pure (step, kind)

/-- The step kept inside the bounds, when these are enforced. -/
def boundedStep (P : Problem α σ n) (x f step : Vector α n) (kind : StepKind) :
    Action α σ n (Vector α n × StepKind) := do
  if P.options.enforceBounds then do
    let limit ← limitByBox P x step
    let chosen ←
      if limit.active = 0 then do
        modifyWork fun w => { w with flags.useSteepestDescent := false }
        pure (limit.step, kind)
      else do
        notify (.boundsActive limit.active)
        whenActive P x f limit.step kind
    match limit.limiting with
    | some i => notify (.boundLimiting i limit.ratio)
    | none => pure ()
    pure chosen
  else pure (step, kind)

/-- The step to search along, and its kind: steepest descent where that is asked for, kept inside
the bounds. -/
def searchDirection (P : Problem α σ n) (descent : Bool) (x f step : Vector α n)
    (kind : StepKind) : Action α σ n (Vector α n × StepKind) := do
  let w := (← get).work
  if descent ∨ w.flags.useSteepestDescent then
    boundedStep P x f (descentStep w f step) .steepestDescent
  else boundedStep P x f step kind

/-- Moves to an accepted point, from `x` with residual `f`. -/
def moveTo (x f : Vector α n) (a : Accepted α n) : Action α σ n Unit :=
  modify fun s =>
    { s with
      x := a.x
      counters.iterations := s.counters.iterations + 1
      work :=
        { s.work with
          history := some ⟨a.x.zipWith (· - ·) x, f⟩
          jacobianAtPoint := false
          lastNorm := scaledNorm a.f s.work.residualScale } }

/-- Does the first attempt of a solve tighten the residual scales in this iteration? -/
def tightensNow (o : Options α) (tighten : Bool) (iteration : Nat) (fresh : Bool) : Bool :=
  tighten && decide (1 < iteration) && (o.residualScaling = .aggressive || fresh)

/-- Is the residual small enough for an attempt that cannot move any further? -/
def settlesFor (o : Options α) (reason : FailureReason) (norm : α) : Bool :=
  (reason = .stepTooSmall && o.exitCriterion = .step) || decide (norm ≤ o.tolerance)

/-- The verdict after a step of scaled length `stepNorm` to a residual of norm `norm`; `none` to go
on. -/
def verdictAfterStep (o : Options α) (tol : Tolerances α) (norm stepNorm : α)
    (record : RunRecord α) : Option (Attempt α) :=
  if norm ≤ tol.function then some record.converged
  else if stepNorm ≤ tol.step then
    if o.exitCriterion = .step ∨ norm ≤ o.tolerance then some record.converged
    else some (record.stopped .stepTooSmall)
  else none

/-- What one iteration came to. -/
inductive Progress (α : Type) (n : Nat) where
  /-- The attempt is over. -/
  | over (attempt : Attempt α)
  /-- To go on with this residual, its norm and this record. -/
  | onward (f : Vector α n) (norm : α) (record : RunRecord α)

/-- The search along a step, and the move to the point it found. A search that fails with a Jacobian
that is not fresh is worth another iteration. -/
def searchAndMove (P : Problem α σ n) (tol : Tolerances α) (iteration : Nat) (fresh : Bool)
    (x f : Vector α n) (norm : α) (record : RunRecord α) (step : Vector α n) (kind : StepKind) :
    Action α σ n (Progress α n) := do
  modify fun s => { s with phase := kind.phase }
  let length := relativeLength step x (← get).work.variableScale
  match ← lineSearch P x f step length tol.step with
  | .error reason =>
    if !fresh then do
      modifyWork fun w => { w with flags.forceNewJacobian := true }
      pure (.onward f norm record)
    else if settlesFor P.options reason norm then pure (.over record.converged)
    else pure (.over (record.stopped reason))
  | .ok accepted => do
    moveTo x f accepted
    let norm := (← get).work.lastNorm
    let stepNorm := accepted.damping * length
    let record := record.push
      { iteration
        residualNorm := norm
        stepNorm
        damping := accepted.damping
        stepKind := kind
        freshJacobian := fresh }
    match verdictAfterStep P.options tol norm stepNorm record with
    | some attempt => pure (.over attempt)
    | none => pure (.onward accepted.f norm record)

/-- One iteration, counted from one, at the current point with residual `f`. -/
def iterateDamped (P : Problem α σ n) (tol : Tolerances α) (descent tighten : Bool)
    (iteration : Nat) (f : Vector α n) (norm : α) (record : RunRecord α) :
    Action α σ n (Progress α n) := do
  let x := (← get).x
  match ← prepareJacobian P iteration x f with
  | .error _ => pure (.over (record.stopped .jacobian))
  | .ok fresh => do
    let norm ←
      if tightensNow P.options tighten iteration fresh then do
        tightenResidualScales P x
        pure (scaledNorm f (← get).work.residualScale)
      else pure norm
    match ← computeStep P f tol.step with
    | none => pure (.over (record.stopped .linearSolve))
    | some (step, kind) => do
      let (step, kind) ← searchDirection P descent x f step kind
      searchAndMove P tol iteration fresh x f norm record step kind

/-- At most `budget` more iterations, the next one being number `iteration`. -/
def loopDamped (P : Problem α σ n) (tol : Tolerances α) (descent tighten : Bool) :
    (budget iteration : Nat) → Vector α n → α → RunRecord α → Action α σ n (Attempt α)
  | 0, _, _, _, record => pure (record.stopped .maxIterations)
  | budget + 1, iteration, f, norm, record => do
    match ← iterateDamped P tol descent tighten iteration f norm record with
    | .over attempt => pure attempt
    | .onward f norm record =>
      loopDamped P tol descent tighten budget (iteration + 1) f norm record

/-- Is this an attempt that tightens the residual scales as it goes? -/
def tightensScales (o : Options α) (w : Workspace α n) : Bool :=
  w.firstAttempt && (o.residualScaling = .aggressive || o.residualScaling = .freshJacobian)

/-- One attempt from the current point, by steepest descent only when `descent` is set. -/
def runDamped (P : Problem α σ n) (tol : Tolerances α) (descent : Bool) :
    Action α σ n (Attempt α) := do
  modifyWork fun w => { w with history := none, flags.useSteepestDescent := false }
  match ← evaluate P (← get).x with
  | .error _ => pure (RunRecord.empty.stopped .initialEvaluation)
  | .ok f => do
    let norm := scaledNorm f (← get).work.residualScale
    modifyWork fun w => { w with lastNorm := norm }
    let record : RunRecord α := { RunRecord.empty with residualNorm := norm }
    if norm ≤ 0.01 * tol.function then pure record.converged
    else do
      let w := (← get).work
      loopDamped P tol descent (tightensScales P.options w) P.options.maxIterations 1 f norm
        record

end

end AlgebraicLoop
