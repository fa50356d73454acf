import AlgebraicLoop.Report

/-!
# Notices

What a block tells its owner while it works: one constructor per occasion, with the numbers that
belong to it. `severity`, `category` and `values` are the parts that do not depend on how numbers
are written.
-/

namespace AlgebraicLoop
set_option autoImplicit false

/-- How much a notice matters. -/
inductive Severity where
  | info
  | warning
  | error
  deriving Repr, DecidableEq

/-- Something a block tells its owner. -/
inductive Notice (α : Type) where
  | illegalResidual (equation : Nat) (residual : α)
  | auxiliaryNotUpdated (reason : String)
  | equalBounds (unknown : Nat) (bound : α)
  | scaleClamped (equation : Nat) (raw scale : α)
  | condition (number : α)
  | illConditioned (condition : α)
  | singularJacobian (generation : Nat)
  | singularLinearBlock
  | regularized
  | minimumNorm (rank : Nat)
  | compressedFailed (mishap : Mishap)
  | jacobianMismatch (row column : Nat) (jacobian difference : α)
  | boundsActive (count : Nat)
  | boundLimiting (unknown : Nat) (ratio : α)
  | descentForced
  | descentRetry
  | firstAttemptFailed (reason : FailureReason) (residualNorm : α)
  | rescaling
  | guessUndefined (mishap : Mishap)
  | nominalRetry
  | notBracketed
  | refined (x residual : α) (iterations : Nat)
  | unconverged (details : Unconverged α)
  deriving Repr

namespace Notice
variable {α : Type}

/-- How much the notice matters. -/
def severity : Notice α → Severity
  | condition _ | regularized | minimumNorm _ | boundsActive _ | boundLimiting _ _ | descentForced
  | descentRetry | rescaling | refined _ _ _ => .info
  | illegalResidual _ _ | auxiliaryNotUpdated _ | equalBounds _ _ | scaleClamped _ _ _
  | illConditioned _ | singularJacobian _ | singularLinearBlock | compressedFailed _
  | firstAttemptFailed _ _ | guessUndefined _ | nominalRetry => .warning
  | jacobianMismatch _ _ _ _ | notBracketed | unconverged _ => .error

/-- A short name for the occasion. -/
def category : Notice α → String
  | illegalResidual _ _ | auxiliaryNotUpdated _ => "IllegalResidual"
  | equalBounds _ _ => "MinAndMaxEqual"
  | scaleClamped _ _ _ => "ScalingClamped"
  | condition _ => "JacobianCondition"
  | illConditioned _ => "IllConditioned"
  | singularJacobian _ | singularLinearBlock => "SingularJacobian"
  | regularized => "Regularization"
  | minimumNorm _ => "MinimumNorm"
  | compressedFailed _ => "CompressedJacobianFailed"
  | jacobianMismatch _ _ _ _ => "JacobianCheck"
  | boundsActive _ => "ActiveBound"
  | boundLimiting _ _ => "LimitingBound"
  | descentForced | descentRetry => "SteepestDescent"
  | firstAttemptFailed _ _ => "NonConverge"
  | rescaling => "Rescaling"
  | guessUndefined _ | nominalRetry => "NominalsAsInitialGuess"
  | notBracketed | refined _ _ _ => "Brent"
  | unconverged _ => "ConvergenceFailure"

/-- The numbers that belong to the notice, by name. -/
def values [Scalar α] : Notice α → List (String × α)
  | illegalResidual i residual => [("index", Scalar.ofNat i), ("residual", residual)]
  | equalBounds i bound => [("index", Scalar.ofNat i), ("bound", bound)]
  | scaleClamped i raw scale => [("index", Scalar.ofNat i), ("raw", raw), ("scale", scale)]
  | condition number | illConditioned number => [("condition", number)]
  | singularJacobian generation => [("generation", Scalar.ofNat generation)]
  | minimumNorm rank => [("rank", Scalar.ofNat rank)]
  | jacobianMismatch i j jacobian difference =>
    [("row", Scalar.ofNat i), ("column", Scalar.ofNat j), ("jacobian", jacobian),
      ("finite_difference", difference)]
  | boundsActive count => [("active", Scalar.ofNat count)]
  | boundLimiting i ratio => [("index", Scalar.ofNat i), ("ratio", ratio)]
  | firstAttemptFailed _ residualNorm => [("residual_norm", residualNorm)]
  | refined x residual iterations =>
    [("x", x), ("residual", residual), ("iterations", Scalar.ofNat iterations)]
  | unconverged details =>
    [("residual_norm", details.residualNorm), ("step_norm", details.stepNorm)]
  | auxiliaryNotUpdated _ | singularLinearBlock | regularized | compressedFailed _ | descentForced
  | descentRetry | rescaling | guessUndefined _ | nominalRetry | notBracketed => []

end Notice

end AlgebraicLoop
