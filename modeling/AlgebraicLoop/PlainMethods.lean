import AlgebraicLoop.Retry

/-!
# Methods without line search

The undamped method takes full steps and clamps them into the bounds. The direct method makes a
single solve `x ← x - J⁻¹ F(x)`, which is exact for an affine residual, and keeps the factorization
as long as the variability of the block allows.

* `solveUndamped`, `solveDirect`: one solve by either method.
-/

namespace AlgebraicLoop
set_option autoImplicit false

section
variable {α σ : Type} [Scalar α] {n : Nat}

/-- The point moved into the box, when bounds are enforced. -/
def clampPoint (P : Problem α σ n) (w : Workspace α n) (x : Vector α n) : Vector α n :=
  if P.options.enforceBounds then w.box.clamp x else x

/-- The verdict after a full step. -/
def verdictAfterFullStep (o : Options α) (tol : Tolerances α) (record : RunRecord α) :
    Option (Attempt α) :=
  if record.residualNorm ≤ tol.function then some record.converged
  else if record.stepNorm ≤ tol.step then
    if record.residualNorm ≤ o.tolerance then some record.converged
    else some (record.stopped .stepTooSmall)
  else none

/-- Moves by a full step to `y`, where the residual is `g`, from `x` with residual `f`. -/
def moveFully (x f y g : Vector α n) (iteration : Nat) (kind : StepKind) (fresh : Bool)
    (record : RunRecord α) : Action α σ n (RunRecord α) := do
  let step := y.zipWith (· - ·) x
  modify fun s =>
    { s with
      x := y
      counters.iterations := s.counters.iterations + 1
      work := { s.work with history := some ⟨step, f⟩, jacobianAtPoint := false } }
  let w := (← get).work
  pure (record.push
    { iteration
      residualNorm := scaledNorm g w.residualScale
      stepNorm := scaledLength step w.variableScale
      damping := 1
      stepKind := kind
      freshJacobian := fresh })

/-- One full step, counted from one, at the current point with residual `f`. -/
def iterateUndamped (P : Problem α σ n) (tol : Tolerances α) (iteration : Nat)
    (f : Vector α n) (record : RunRecord α) :
    Action α σ n (Attempt α ⊕ Vector α n × RunRecord α) := do
  let x := (← get).x
  match ← prepareJacobian P iteration x f with
  | .error _ => pure (.inl (record.stopped .jacobian))
  | .ok fresh => do
    match ← computeStep P f tol.step with
    | none => pure (.inl (record.stopped .linearSolve))
    | some (step, kind) => do
      let y := clampPoint P (← get).work (x.zipWith (· + ·) step)
      match ← evaluate P y with
      | .error _ => pure (.inl (record.stopped .lineSearch))
      | .ok g => do
        let record ← moveFully x f y g iteration kind fresh record
        match verdictAfterFullStep P.options tol record with
        | some attempt => pure (.inl attempt)
        | none => pure (.inr (g, record))

/-- At most `budget` more full steps, the next one being number `iteration`. -/
def loopUndamped (P : Problem α σ n) (tol : Tolerances α) :
    (budget iteration : Nat) → Vector α n → RunRecord α → Action α σ n (Attempt α)
  | 0, _, _, record => pure (record.stopped .maxIterations)
  | budget + 1, iteration, f, record => do
    match ← iterateUndamped P tol iteration f record with
    | .inl attempt => pure attempt
    | .inr (f, record) => loopUndamped P tol budget (iteration + 1) f record

/-- Full steps from the current point. -/
def runUndamped (P : Problem α σ n) (tol : Tolerances α) : Action α σ n (Attempt α) := do
  match ← evaluate P (← get).x with
  | .error _ => pure (RunRecord.empty.stopped .initialEvaluation)
  | .ok f => do
    let norm := scaledNorm f (← get).work.residualScale
    let record : RunRecord α := { RunRecord.empty with residualNorm := norm }
    if norm ≤ tol.function then pure record.converged
    else loopUndamped P tol P.options.maxIterations 1 f record

/-- Factors the Jacobian of an affine residual: by elimination, else for least-norm steps. -/
def factorDirect : Action α σ n Bool := do
  let w := (← get).work
  modifyWork fun w => { w with factoredGeneration := some w.generation }
  match LU.factor w.jacobian with
  | .ok lu => do
    modifyWork fun w => { w with factorization := .lu lu, flags.singular := false }
    pure true
  | .error _ => do
    modifyWork fun w => { w with flags.singular := true }
    notify .singularLinearBlock
    match LeastNorm.factor w.jacobian with
    | .ok f => do
      storeFactorization (.minimumNorm f)
      pure true
    | .error _ => do
      storeFactorization .none
      pure false

/-- The step `-J⁻¹ F` by the factorization in use; `none` when that is not one of the Jacobian
itself, or the step not finite. -/
def directStep? (w : Workspace α n) (f : Vector α n) : Option (Vector α n × StepKind) :=
  let b := f.map (- ·)
  let solved : Option (Vector α n × StepKind) := match w.factorization with
    | .lu lu => some (lu.solve b, .newton)
    | .minimumNorm g => some (g.solve b, .minimumNorm)
    | .none | .regularized _ | .scalar => none
  solved.filter fun (step, _) => allFinite step

/-- Do two points differ in some entry? -/
def differs (x y : Vector α n) : Bool := !(x.zipWith (· == ·) y).all id

/-- The verdict on a direct solve that started from a residual of norm `initialNorm`. -/
def verdictOnDirect (tol : Tolerances α) (initialNorm : α) (clamped : Bool)
    (record : RunRecord α) : Attempt α :=
  if record.residualNorm > tol.function * larger 1 initialNorm then
    record.stopped (if clamped then .solutionOutsideBounds else .linearSolve)
  else record.converged

/-- Moves by the step of a direct solve, from `x` with residual of norm `initialNorm`. -/
def moveDirectly (P : Problem α σ n) (tol : Tolerances α) (x : Vector α n) (initialNorm : α)
    (step : Vector α n) (kind : StepKind) : Action α σ n (Attempt α) := do
  let record : RunRecord α := { RunRecord.empty with residualNorm := initialNorm }
  let target := x.zipWith (· + ·) step
  let y := clampPoint P (← get).work target
  match ← evaluate P y with
  | .error _ => pure (record.stopped .lineSearch)
  | .ok g => do
    modify fun s =>
      { s with
        x := y
        counters.iterations := s.counters.iterations + 1
        work := { s.work with jacobianAtPoint := false } }
    let w := (← get).work
    let record := record.push
      { iteration := 1
        residualNorm := scaledNorm g w.residualScale
        stepNorm := scaledLength (y.zipWith (· - ·) x) w.variableScale
        damping := 1
        stepKind := kind
        freshJacobian := w.jacobianAge = 0 }
    pure (verdictOnDirect tol initialNorm (differs y target) record)

/-- One direct solve from the current point. -/
def runDirect (P : Problem α σ n) (tol : Tolerances α) : Action α σ n (Attempt α) := do
  let x := (← get).x
  match ← evaluate P x with
  | .error _ => pure (RunRecord.empty.stopped .initialEvaluation)
  | .ok f => do
    let norm := scaledNorm f (← get).work.residualScale
    let record : RunRecord α := { RunRecord.empty with residualNorm := norm }
    match ← prepareJacobian P 1 x f with
    | .error _ => pure (record.stopped .jacobian)
    | .ok _ => do
      let usable ← if (← get).work.isFactored then pure true else factorDirect
      let w := (← get).work
      match if usable then directStep? w f else none with
      | none => pure (record.stopped .linearSolve)
      | some (step, kind) => moveDirectly P tol x norm step kind

/-- Runs a method of a single attempt and gives its verdict. -/
def solveOnce (P : Problem α σ n)
    (run : Problem α σ n → Tolerances α → Action α σ n (Attempt α)) :
    Action α σ n (Report α) := do
  discard (setUp P)
  let tol := P.options.plainTolerances n
  modify fun s => { s with phase := .iterating }
  let attempt ← run P tol
  closeSolve P ⟨attempt, Report.empty.add attempt, tol.step⟩

/-- A solve by the undamped method. -/
def solveUndamped (P : Problem α σ n) : Action α σ n (Report α) := solveOnce P runUndamped

/-- A solve by the direct method. -/
def solveDirect (P : Problem α σ n) : Action α σ n (Report α) := solveOnce P runDirect

end

end AlgebraicLoop
