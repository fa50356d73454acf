import AlgebraicLoop.DampedRun

/-!
# The damped method

A solve is a sequence of attempts. The first one runs with the scales at hand. For one unknown the
root is then refined between the two nearest points that bracket it. After the first solve of a
block, or a failure, the scales are computed anew and the attempt repeated; what still fails may be
tried by steepest descent before that, and from the nominal values after it.

* `checkStartingPoint`: the first evaluation of all, with a restart from the nominal values;
* `refineRoot`: the refinement of a single unknown;
* `solveDamped`: the whole sequence.
-/

namespace AlgebraicLoop
set_option autoImplicit false

section
variable {α σ : Type} [Scalar α] {n : Nat}

/-- Moves the current point to the nominal values. -/
def restartFromNominal (P : Problem α σ n) : Action α σ n Unit := do
  let s ← get
  match nominalGuess? s.nominal s.lower s.upper P.options.enforceBounds with
  | some x => modify fun s => { s with x }
  | none => throw .limitsOutOfOrder

/-- Evaluates the residual at the very first point. Where it is undefined, the nominal values take
its place, if the options allow. -/
def checkStartingPoint (P : Problem α σ n) : Action α σ n Unit := do
  match ← evaluate P (← get).x with
  | .ok _ => pure ()
  | .error mishap =>
    if P.options.nominalFallback then do
      restartFromNominal P
      notify (.guessUndefined mishap)
      match ← evaluate P (← get).x with
      | .ok _ => pure ()
      | .error mishap => fail (.initialEvaluation mishap)
    else fail (.initialEvaluation mishap)

/-- The residual of a single unknown. -/
def evaluateSingle (P : Problem α σ n) (h : n = 1) (x : α) :
    ExceptT Mishap (EStateM (Halt α) (Session α σ n)) α :=
  ExceptT.mk do
    let answer ← evaluate P (Vector.replicate n x)
    pure (answer.map fun f => getElem f 0 (pos_of_one h))

/-- Moves to a refined root. -/
def moveToRoot (root : Sample α) (iterations : Nat) : Action α σ n Unit := do
  modify fun s =>
    { s with
      x := Vector.replicate n root.x
      work := { s.work with jacobianAtPoint := false } }
  notify (.refined root.x root.f iterations)

/-- The attempt of a single unknown with its root refined to `root`. -/
def refinedAttempt (w : Workspace α n) (h : n = 1) (root : Sample α) (attempt : Attempt α) :
    Attempt α :=
  { record :=
      { attempt.record with residualNorm := abs (root.f * getElem w.residualScale 0 (pos_of_one h)) }
    failure := none }

/-- Refines the root of a single unknown between the points that bracket it. A search that comes to
its end makes the attempt a success. Also tells whether that happened. -/
def refineRoot (P : Problem α σ n) (h : n = 1) (attempt : Attempt α) :
    Action α σ n (Attempt α × Bool) := do
  match (← get).bracket.interval? with
  | none => do
    if attempt.failed then notify .notBracketed
    pure (attempt, false)
  | some (below, above) => do
    match ← (findRoot (evaluateSingle P h) below above 0).run with
    | .error _ => pure (attempt, false)
    | .ok found =>
      if found.converged then do
        moveToRoot found.point found.iterations
        pure (refinedAttempt (← get).work h found.point attempt, true)
      else pure (attempt, false)

/-- Refines the root where there is a single unknown and the options ask for it. -/
def refineAttempt (P : Problem α σ n) (attempt : Attempt α) :
    Action α σ n (Attempt α × Bool) :=
  if P.options.refineBracket then
    if h : n = 1 then refineRoot P h attempt else pure (attempt, false)
  else pure (attempt, false)

/-- Goes back to the last accepted outer step, when the options ask for it and nothing speaks
against it. -/
def startFromAccepted (P : Problem α σ n) : Action α σ n Unit := do
  let s ← get
  if P.options.startFromAccepted ∧ !s.atEvent ∧ !s.guessGiven then
    match s.work.accepted with
    | some checkpoint =>
      modify fun s => { s with x := checkpoint.x, work := s.work.rewind checkpoint }
    | none => pure ()
  else pure ()

/-- Everything before the first attempt of a solve. -/
def openSolve (P : Problem α σ n) : Action α σ n Bool := do
  let first ← setUp P
  modify fun s => { s with bracket := {} }
  if first then checkStartingPoint P else startFromAccepted P
  modifyWork fun w => { w with jacobianAtPoint := false }
  if first || P.options.rescaleEachSolve || (← get).work.flags.forceRescaling then
    updateResidualScales P
  pure first

/-- An attempt together with the report of all attempts so far and the step tolerance of the last
one. -/
structure Standing (α : Type) where
  attempt : Attempt α
  report : Report α
  stepTolerance : α

/-- The first attempt, refined. -/
def firstAttempt (P : Problem α σ n) : Action α σ n (Standing α) := do
  let tol := P.options.firstTolerances n
  modifyWork fun w => { w with firstAttempt := true, retrying := false }
  let attempt ← runDamped P tol false
  modifyWork fun w => { w with firstAttempt := false }
  let report := Report.empty.add attempt
  let (attempt, refined) ← refineAttempt P attempt
  pure ⟨attempt, { report with refined }, tol.step⟩

/-- Another attempt by steepest descent, if the last one failed and the options allow. -/
def tryDescent (P : Problem α σ n) (s : Standing α) : Action α σ n (Standing α) := do
  if s.attempt.failed && P.options.steepestDescentFallback then do
    notify .descentRetry
    let attempt ← runDamped P (P.options.firstTolerances n) true
    pure { s with attempt, report := s.report.add attempt }
  else pure s

/-- Another attempt with new residual scales, after a failure and in the first solve. A converged
attempt stays the verdict when this one fails. -/
def tryRescaled (P : Problem α σ n) (first : Bool) (s : Standing α) :
    Action α σ n (Standing α) := do
  if P.options.residualScaling ≠ .none ∧ (first ∨ s.attempt.failed) then do
    match s.attempt.failure with
    | some reason => notify (.firstAttemptFailed reason s.attempt.record.residualNorm)
    | none => pure ()
    notify .rescaling
    updateResidualScales P
    let tol := P.options.retryTolerances
    modifyWork fun w => { w with retrying := true }
    let retry ← runDamped P tol false
    modifyWork fun w => { w with retrying := false }
    let attempt := if s.attempt.failed || !retry.failed then retry else s.attempt
    if attempt.failed then
      modifyWork fun w =>
        { w with flags.forceNewJacobian := true, flags.forceRescaling := true }
    pure ⟨attempt, s.report.add retry, tol.step⟩
  else pure s

/-- A last attempt from the nominal values, if all others failed and the options allow. -/
def tryNominal (P : Problem α σ n) (s : Standing α) : Action α σ n (Standing α) := do
  if s.attempt.failed && P.options.nominalFallback then do
    restartFromNominal P
    modifyWork fun w => { w with jacobianAtPoint := false }
    notify .nominalRetry
    let tol := P.options.firstTolerances n
    let attempt ← runDamped P tol false
    pure ⟨attempt, s.report.add attempt, tol.step⟩
  else pure s

/-- Ends a solve as a failure. -/
def failSolve {β : Type} (P : Problem α σ n) (record : RunRecord α) (reason : FailureReason)
    (stepTolerance : α) (iterations : Nat) : Action α σ n β := do
  modify fun s =>
    { s with phase := .failed, work := { s.work with flags.forceNewJacobian := true } }
  let details : Unconverged α :=
    { residualNorm := record.residualNorm
      stepNorm := record.stepNorm
      residualTolerance := P.options.tolerance
      stepTolerance
      iterations
      reason }
  notify (.unconverged details)
  fail (.unconverged details)

/-- Hands the final point to the model and gives the verdict. -/
def closeSolve (P : Problem α σ n) (s : Standing α) : Action α σ n (Report α) := do
  writeBack P
  match s.attempt.failure with
  | none => do
    modify fun s => { s with phase := .converged }
    pure
      { s.report with
        residualNorm := s.attempt.record.residualNorm
        jacobianMismatches := (← get).work.jacobianMismatches }
  | some reason =>
    failSolve P s.attempt.record reason s.stepTolerance s.report.iterations

/-- A solve by the damped method. -/
def solveDamped (P : Problem α σ n) : Action α σ n (Report α) := do
  let first ← openSolve P
  let standing ← firstAttempt P
  let standing ← tryDescent P standing
  let standing ← tryRescaled P first standing
  let standing ← tryNominal P standing
  closeSolve P standing

end

end AlgebraicLoop
