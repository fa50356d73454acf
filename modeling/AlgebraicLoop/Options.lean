import AlgebraicLoop.Scalar

/-!
# How a loop is to be solved

`Options` collects the choices that are made once for a block: the method, tolerances and limits,
how residuals and unknowns are scaled, how the Jacobian is obtained and how long it is kept, when
the iteration stops and what is tried after it failed.

* `Tolerances`: the two exit tolerances of one attempt, first and after rescaling.
-/

namespace AlgebraicLoop
set_option autoImplicit false

/-- How a block is solved. -/
inductive Method where
  /-- Damped iteration with scaling, bounds, recovery and retries. -/
  | damped
  /-- Full steps only, clamped into the bounds. -/
  | undamped
  /-- One direct solve, for residuals that are affine. -/
  | direct
  deriving Repr, DecidableEq

/-- Where the residual scales come from. -/
inductive ResidualScaling where
  /-- All scales are one. -/
  | none
  /-- The model's own residual magnitudes. -/
  | manual
  /-- The greatest entry of each Jacobian row. -/
  | automatic
  /-- Automatic, and tightened in every iteration of the first attempt. -/
  | aggressive
  /-- Automatic, and tightened in iterations of the first attempt with a fresh Jacobian. -/
  | freshJacobian
  /-- The model's own magnitudes where they are not zero, automatic elsewhere. -/
  | hybrid
  deriving Repr, DecidableEq

/-- Are the scales taken from a Jacobian? -/
def ResidualScaling.usesJacobian : ResidualScaling → Bool
  | .none | .manual => false
  | .automatic | .aggressive | .freshJacobian | .hybrid => true

/-- Where the scales of the unknowns come from. -/
inductive VariableScaling (α : Type) where
  /-- All scales are one. -/
  | none
  /-- The nominal values. -/
  | nominal
  /-- Given magnitudes; unknowns beyond the list use their nominal value. -/
  | manual (magnitudes : Array α)
  deriving Repr

/-- The unknowns whose column is differenced on both sides. -/
inductive TwoSided where
  | all
  | nearBound
  | nearBoundOrZero
  deriving Repr, DecidableEq

/-- How a fresh Jacobian is obtained. -/
inductive JacobianSource where
  /-- Differences to one side. -/
  | oneSided
  /-- Differences to both sides for the given unknowns, always or only in the rescaled retry. -/
  | twoSided (columns : TwoSided) (onlyInRetry : Bool)
  /-- Differences to both sides once the residual is small. -/
  | twoSidedNearSolution
  /-- The model's own derivatives. -/
  | analytic
  /-- Differences to one side of several columns at once. -/
  | compressed
  deriving Repr, DecidableEq

/-- How the Jacobian is kept between fresh evaluations. -/
inductive JacobianUpdate where
  /-- Evaluated afresh in every iteration. -/
  | full
  /-- Kept for a limited number of iterations. -/
  | reuse
  /-- The secant update of least change. -/
  | broyden
  /-- The secant update that keeps zero entries. -/
  | sparseBroyden
  /-- A secant update of rank two. -/
  | modifiedBfgs
  deriving Repr, DecidableEq

/-- What ends the iteration. -/
inductive ExitCriterion where
  | step
  | residual
  | stepAndResidual
  deriving Repr, DecidableEq

/-- What is done with the rest of a step when a bound is active. -/
inductive ActiveBounds where
  /-- The rest of the step is kept. -/
  | project
  /-- Steepest descent, unless the projected step still points downhill. -/
  | steepestDescent
  deriving Repr, DecidableEq

/-- The choices for one block. -/
structure Options (α : Type) where
  tolerance : α
  /-- The least tolerance, and the step tolerance of one unknown that is bracketed. -/
  leastTolerance : α
  maxIterations : Nat
  /-- How many iterations may pass without a fresh Jacobian. -/
  maxJacobianAge : Nat
  residualScaling : ResidualScaling
  variableScaling : VariableScaling α
  leastScale : α
  greatestScale : α
  jacobianSource : JacobianSource
  jacobianUpdate : JacobianUpdate
  /-- The relative increment of difference quotients. -/
  differenceStep : α
  enforceBounds : Bool
  activeBounds : ActiveBounds
  /-- A bound that admits less than this part of a step is active; absent, twice the step
  tolerance. -/
  minStepRatio : Option α
  /-- The longest step, relative to the size of the unknown. -/
  stepLimitFactor : Option α
  exitCriterion : ExitCriterion
  /-- Refine a single unknown between the two points that bracket its root. -/
  refineBracket : Bool
  /-- Compare exact derivatives with difference quotients. -/
  checkJacobian : Bool
  checkTolerance : α
  /-- Start each solve from the last accepted outer step. -/
  startFromAccepted : Bool
  /-- The condition number above which a badly scaled Jacobian counts as singular; absent, the
  inverse of the tolerance. -/
  singularCondition : Option α
  rescaleEachSolve : Bool
  rescaleAfterSingular : Bool
  reportCondition : Bool
  /-- Start again from the nominal values when the guess fails. -/
  nominalFallback : Bool
  /-- Try steepest descent after a failed attempt. -/
  steepestDescentFallback : Bool
  maxBacktracks : Nat
  method : Method
  deriving Repr

/-- The exit tolerances of one attempt. -/
structure Tolerances (α : Type) where
  /-- For the greatest scaled residual. -/
  function : α
  /-- For the scaled length of a step. -/
  step : α
  deriving Repr

namespace Options
variable {α : Type} [Scalar α]

/-- The choices that are made unless others are asked for. -/
def standard : Options α where
  tolerance := 1e-10
  leastTolerance := 1e-12
  maxIterations := 100
  maxJacobianAge := 10
  residualScaling := .automatic
  variableScaling := .nominal
  leastScale := 1e-10
  greatestScale := 1e10
  jacobianSource := .oneSided
  jacobianUpdate := .full
  differenceStep := sqrt roundoff
  enforceBounds := true
  activeBounds := .project
  minStepRatio := none
  stepLimitFactor := some 10
  exitCriterion := .stepAndResidual
  refineBracket := true
  checkJacobian := false
  checkTolerance := 1e-3
  startFromAccepted := false
  singularCondition := none
  rescaleEachSolve := false
  rescaleAfterSingular := true
  reportCondition := false
  nominalFallback := true
  steepestDescentFallback := false
  maxBacktracks := 20
  method := .damped

/-- The step tolerance for `n` unknowns. -/
def stepTolerance (o : Options α) (n : Nat) : α :=
  if n = 1 ∧ o.refineBracket then o.leastTolerance else larger o.tolerance o.leastTolerance

/-- The condition number above which a badly scaled Jacobian counts as singular. -/
def conditionLimit (o : Options α) : α := o.singularCondition.getD (1 / o.tolerance)

/-- The part of a step below which a bound is active, for `n` unknowns. -/
def activeRatio (o : Options α) (n : Nat) : α := o.minStepRatio.getD (2 * o.stepTolerance n)

/-- The tolerances of the first attempt with `n` unknowns. -/
def firstTolerances (o : Options α) (n : Nat) : Tolerances α :=
  match o.exitCriterion with
  | .step | .stepAndResidual => ⟨roundoff, o.stepTolerance n⟩
  | .residual => ⟨o.tolerance, roundoff⟩

/-- The tolerances of the attempt after rescaling. -/
def retryTolerances (o : Options α) : Tolerances α := ⟨o.tolerance, roundoff⟩

/-- The tolerances of the methods without line search, for `n` unknowns. -/
def plainTolerances (o : Options α) (n : Nat) : Tolerances α := ⟨o.tolerance, o.stepTolerance n⟩

end Options

end AlgebraicLoop
