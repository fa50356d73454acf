import AlgebraicLoop.Merit
import AlgebraicLoop.Session

/-!
# Steps from regular and singular Jacobians

A step solves `J p = -F`. Where `J` cannot be factored, the first remedy is to solve the regularized
normal equations `(Jᵀ W² J + D²) p = -Jᵀ W² F`, the second, when the next factorization fails too,
the least-squares step of least norm. A single unknown follows a sign rule instead.

* `factorize`: a factorization of the current Jacobian, or of what stands in for it;
* `computeStep`: the step, and how it was computed.
-/

namespace AlgebraicLoop
set_option autoImplicit false

section
variable {α σ : Type} [Scalar α] {n : Nat}

/-- The matrix of the regularized normal equations. -/
def regularizedNormal (w : Workspace α n) : Mat α n n :=
  let normal := w.jacobian.weightedNormal w.residualScale
  Mat.ofFn fun i j =>
    if i = j then normal[i][j] + w.variableScale[j] * w.variableScale[j] else normal[i][j]

/-- Stores the factorization for the next steps. -/
def storeFactorization (factorization : Factorization α n) : Action α σ n Unit :=
  modifyWork fun w => { w with factorization }

/-- Factors for least-norm steps; `false` when there are none. -/
def factorMinimumNorm : Action α σ n Bool := do
  match LeastNorm.factor (← get).work.jacobian with
  | .ok f => do
    notify (.minimumNorm f.rank)
    storeFactorization (.minimumNorm f)
    pure true
  | .error _ => do
    storeFactorization .none
    pure false

/-- Factors what stands in for a singular Jacobian. -/
def factorRecovery (mode : RecoveryMode) : Action α σ n Bool := do
  if n = 1 then do
    storeFactorization .scalar
    pure true
  else if mode = .regularization then
    match LU.factor (regularizedNormal (← get).work) with
    | .ok lu => do
      notify .regularized
      storeFactorization (.regularized lu)
      pure true
    | .error _ => do
      modifyWork fun w => { w with recovery := .minimumNorm }
      factorMinimumNorm
  else factorMinimumNorm

/-- Treats the Jacobian as singular. The remedy is the second one if the factorization before failed
as well, unless the Jacobian was marked beforehand. -/
def recoverSingular (premarked : Bool) : Action α σ n Bool := do
  let w := (← get).work
  let mode : RecoveryMode :=
    if premarked ∨ !w.flags.singular then .regularization else .minimumNorm
  modifyWork fun w => { w with flags.singular := true, recovery := mode }
  notify (.singularJacobian w.generation)
  factorRecovery mode

/-- Factors the Jacobian, or what stands in for it; `false` when nothing can be factored. -/
def factorize : Action α σ n Bool := do
  let w := (← get).work
  let premarked := w.premarkedSingular
  modifyWork fun w =>
    { w with factoredGeneration := some w.generation, premarkedSingular := false }
  if premarked then recoverSingular true
  else
    match LU.factor w.jacobian with
    | .ok lu => do
      modifyWork fun w =>
        { w with
          factorization := .lu lu
          flags.singular := false
          recovery := .regularization }
      pure true
    | .error _ => recoverSingular false

/-- The right-hand side of the regularized normal equations for `-F = b`. Where the gradient
vanishes it is a fixed direction instead. -/
def regularizedSide (w : Workspace α n) (b : Vector α n) (stepTolerance : α) : Vector α n :=
  let weighted := b.zipWith (fun y c => y * c * c) w.residualScale
  let gradient := w.jacobian.applyTranspose weighted
  if maxNorm gradient < stepTolerance then
    Vector.replicate n (total (weighted.zipWith (· / ·) w.variableScale))
  else gradient

/-- The step of a single unknown whose Jacobian is zero: a tenth of its nominal value, in the
direction that the signs of residual and Jacobian give. -/
def scalarStep (nominal f jacobian : Vector α n) : Vector α n :=
  Vector.ofFn fun i => 0.1 * abs nominal[i] * signum (-f[i]) * signum jacobian[i]

/-- The step for the residual `f` by the factorization in use; `none` when there is none. -/
def factoredStep? (w : Workspace α n) (nominal f : Vector α n) (stepTolerance : α) :
    Option (Vector α n × StepKind) :=
  let b := f.map (- ·)
  match w.factorization with
  | .none => none
  | .lu lu => some (lu.solve b, .newton)
  | .regularized lu => some (lu.solve (regularizedSide w b stepTolerance), .regularized)
  | .minimumNorm g => some (g.solve b, .minimumNorm)
  | .scalar =>
    some (scalarStep nominal f (Vector.ofFn fun i => w.jacobian[i][i]), .regularized)

/-- What a step that stands in for another leaves behind: the Jacobian is to be evaluated afresh,
and the scales before the next solve. -/
def afterRecoveryStep (P : Problem α σ n) : Action α σ n Unit := do
  modifyWork fun w => { w with flags.forceNewJacobian := true }
  if P.options.rescaleAfterSingular then
    modifyWork fun w => { w with flags.forceRescaling := true }
  if P.auxiliaryCount > 0 then do
    updateAuxiliary P (← get).x
  modify fun s =>
    { s with
      phase := match s.work.recovery with
        | .regularization => .regularizing
        | .minimumNorm => .minimumNorm }

/-- The step for the residual `f`, and how it was computed; `none` when there is no finite one. -/
def computeStep (P : Problem α σ n) (f : Vector α n) (stepTolerance : α) :
    Action α σ n (Option (Vector α n × StepKind)) := do
  let usable ← if (← get).work.isFactored then pure true else factorize
  let s ← get
  match if usable then factoredStep? s.work s.nominal f stepTolerance else none with
  | none => pure none
  | some (step, kind) =>
    if !allFinite step then pure none
    else do
      if kind ≠ .newton then afterRecoveryStep P
      pure (some (step, kind))

end

end AlgebraicLoop
