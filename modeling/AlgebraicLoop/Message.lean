import AlgebraicLoop.Decimal.Layout
import AlgebraicLoop.Linear.Holder
import AlgebraicLoop.Notice
import AlgebraicLoop.Scalar.Binary64

/-!
# Message texts

The wording of failures, faults and notices.

* `EvalFailure.message`, `Mishap.message`, `FailureReason.message`, `Fault.message`, and
  `StepKind.name`;
* `Notice.message`, `Notice.line`: a notice by itself, and with its block, category and numbers;
* `EliminationSolver.note`, `LeastNormSolver.note`: why a linear solver refused.
-/

namespace AlgebraicLoop
set_option autoImplicit false

open NumberText (natural plain scientific)

/-- The text of a model's failure. -/
def EvalFailure.message : EvalFailure → String
  | .recoverable reason => "recoverable evaluation failure: " ++ reason
  | .fatal reason => "fatal evaluation failure: " ++ reason

/-- The name of a request. -/
def Request.name : Request → String
  | .start => "initialize"
  | .evaluate => "evaluate"
  | .evaluateAuxiliary => "evaluate auxiliary"
  | .writeBack => "write back"
  | .differentiate => "derivative"

/-- The text of a mishap. -/
def Mishap.message : Mishap → String
  | .model reason => reason
  | .illegalResidual i => "residual " ++ natural i ++ " is not finite"
  | .illegalEntry i j => "Jacobian entry (" ++ natural i ++ ", " ++ natural j ++ ") is not finite"
  | .undefinedAround j => "residual undefined on both sides of variable " ++ natural j

/-- The text of the reason why an attempt stopped. -/
def FailureReason.message : FailureReason → String
  | .maxIterations => "the iteration limit was reached"
  | .lineSearch => "the line search could not find a sufficiently distinct iterate"
  | .stepTooSmall =>
    "the step norm criterion is satisfied but the residual norm is above the tolerance"
  | .linearSolve => "no step could be computed from the Jacobian"
  | .jacobian => "the Jacobian could not be evaluated"
  | .initialEvaluation => "the residual could not be evaluated at the initial point"
  | .solutionOutsideBounds => "the solution of the linear system violates the variable bounds"

/-- The name of a kind of step. -/
def StepKind.name : StepKind → String
  | .newton => "Newton"
  | .regularized => "Regularized"
  | .minimumNorm => "MinimumNorm"
  | .steepestDescent => "SteepestDescent"

/-- The text of an unsuccessful solve. -/
def Unconverged.message (u : Unconverged Float) : String :=
  "Could not converge: " ++ u.reason.message ++ " (residual " ++ scientific u.residualNorm ++
    ", step " ++ scientific u.stepNorm ++ ", tolerances: residual " ++
    scientific u.residualTolerance ++ ", step " ++ scientific u.stepTolerance ++ ", " ++
    natural u.iterations ++ " iterations)"

/-- The text of a fault. -/
def Fault.message : Fault Float → String
  | .emptyBlock label => "Equation block " ++ label ++ " has no real unknowns"
  | .inconsistentBounds i lower upper =>
    "Variable " ++ natural i ++ " has inconsistent bounds: min " ++ plain lower ++ " > max " ++
      plain upper
  | .dimensionMismatch expected actual =>
    "Expected " ++ natural expected ++ " values but got " ++ natural actual
  | .modelFatal request reason =>
    "Residual function failed fatally in " ++ request.name ++ " mode: " ++ reason
  | .initialEvaluation mishap =>
    "Residual could not be evaluated at the initial guess: " ++ mishap.message
  | .jacobian mishap => "Could not evaluate the Jacobian: " ++ mishap.message
  | .unconverged details => details.message
  | .notFactored =>
    "Linear algebra failed: the Jacobian could not be factorized, " ++
      "not even in the minimum-norm sense"

namespace Notice

/-- The text of a notice, without its numbers. -/
def message : Notice Float → String
  | illegalResidual i _ => "Residual " ++ natural i ++ " is not finite"
  | auxiliaryNotUpdated reason => "Auxiliary outputs could not be updated: " ++ reason
  | equalBounds i _ => "Variable " ++ natural i ++ " has equal min and max; it cannot change"
  | scaleClamped i _ _ => "Residual scale for equation " ++ natural i ++ " is out of range"
  | condition _ => "Condition number of the scaled Jacobian"
  | illConditioned _ => "Scaled Jacobian is ill-conditioned; treating it as singular"
  | singularJacobian _ => "Singular Jacobian detected"
  | singularLinearBlock =>
    "Singular Jacobian in a linear block; using the minimum-norm solution"
  | regularized => "Using the regularized normal equations"
  | minimumNorm _ => "Using the minimum-norm solution"
  | compressedFailed mishap =>
    "Compressed Jacobian evaluation failed (" ++ mishap.message ++ "); using plain differences"
  | jacobianMismatch i j _ _ =>
    "Jacobian entry (" ++ natural i ++ ", " ++ natural j ++ ") disagrees with finite differences"
  | boundsActive _ => "Variables pinned to their bounds"
  | boundLimiting i _ => "Step limited by a bound on variable " ++ natural i
  | descentForced => "Projected step is not a descent direction; using steepest descent"
  | descentRetry => "Retrying with steepest-descent steps"
  | firstAttemptFailed reason _ => "First attempt failed: " ++ reason.message
  | rescaling => "Updating residual scaling and solving again"
  | guessUndefined mishap =>
    "Residual undefined at the initial guess (" ++ mishap.message ++
      "); starting from nominal values"
  | nominalRetry => "Retrying from nominal values"
  | notBracketed => "Could neither iterate to required accuracy nor bracket the root"
  | refined _ _ _ => "Root refined by Brent's method"
  | unconverged details => details.message

/-- The notice as one line: block, category, text and numbers. -/
def line (label : String) (notice : Notice Float) : String :=
  "[" ++ label ++ "] " ++ notice.category ++ ": " ++ notice.message ++
    String.join (notice.values.map fun (name, x) => " <" ++ name ++ ": " ++ scientific x ++ ">")

end Notice

/-- A matrix shape as text. -/
def shapeText (rows columns : Nat) : String := natural rows ++ "x" ++ natural columns

/-- Why elimination refused. -/
def EliminationSolver.note : Refusal Float → String
  | .notSquare rows columns => "LU needs a square matrix, got " ++ shapeText rows columns
  | .notFinite | .notDiagonalised | .singularValuesNotFinite => "Matrix has non-finite entries"
  | .singularPivot pivot column =>
    "Singular pivot " ++ scientific pivot ++ " in column " ++ natural column
  | .nothingFactored => "Dense LU not factorized"
  | .wrongLength length size =>
    "Right-hand side has length " ++ natural length ++ " but the factorization is " ++
      shapeText size size

/-- Why the least-norm solver refused. -/
def LeastNormSolver.note : Refusal Float → String
  | .notSquare rows columns =>
    "Minimum-norm solve needs a square matrix, got " ++ shapeText rows columns
  | .notFinite | .notDiagonalised | .singularPivot _ _ => "SVD did not converge: NoConvergence"
  | .singularValuesNotFinite => "SVD produced non-finite values"
  | .nothingFactored => "SVD not computed"
  | .wrongLength length size =>
    "Right-hand side has length " ++ natural length ++ " but the matrix is " ++
      shapeText size size

end AlgebraicLoop
