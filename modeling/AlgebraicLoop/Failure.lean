import AlgebraicLoop.Scalar

/-!
# What can go wrong

* `EvalFailure`: the answer of a model that could not do what it was asked;
* `Mishap`: why a residual or a Jacobian is not defined at a point. It rejects the point only;
* `FailureReason`, `Unconverged`: why and where an iteration stopped short of a solution;
* `Fault`: what leaves a block as an error;
* `Halt`: what ends an operation early.
-/

namespace AlgebraicLoop
set_option autoImplicit false

/-- The answer of a model that could not do what it was asked. -/
inductive EvalFailure where
  /-- The point lies outside the domain; another one may be tried. -/
  | recoverable (reason : String)
  /-- The model cannot go on. -/
  | fatal (reason : String)
  deriving Repr, DecidableEq

/-- What a model is asked to do. -/
inductive Request where
  | start
  | evaluate
  | evaluateAuxiliary
  | writeBack
  | differentiate
  deriving Repr, DecidableEq

/-- Why a residual or a Jacobian is not defined at a point. -/
inductive Mishap where
  /-- The model said so. -/
  | model (reason : String)
  /-- A residual came out infinite or NaN. -/
  | illegalResidual (equation : Nat)
  /-- An entry of the Jacobian came out infinite or NaN. -/
  | illegalEntry (row column : Nat)
  /-- No difference quotient could be formed for an unknown. -/
  | undefinedAround (unknown : Nat)
  deriving Repr, DecidableEq

/-- Why an attempt stopped short of its exit criterion. -/
inductive FailureReason where
  | maxIterations
  | lineSearch
  | stepTooSmall
  | linearSolve
  | jacobian
  | initialEvaluation
  | solutionOutsideBounds
  deriving Repr, DecidableEq

/-- Where an unsuccessful solve stopped, and what had been asked for. -/
structure Unconverged (α : Type) where
  residualNorm : α
  stepNorm : α
  residualTolerance : α
  stepTolerance : α
  iterations : Nat
  reason : FailureReason
  deriving Repr, DecidableEq

/-- The errors of a block. -/
inductive Fault (α : Type) where
  /-- A block needs an unknown. -/
  | emptyBlock (label : String)
  /-- A lower bound is above its upper bound. -/
  | inconsistentBounds (unknown : Nat) (lower upper : α)
  /-- A vector has the wrong length. -/
  | dimensionMismatch (expected actual : Nat)
  /-- The model cannot go on. -/
  | modelFatal (request : Request) (reason : String)
  /-- The residual is not defined at the starting point. -/
  | initialEvaluation (mishap : Mishap)
  /-- A Jacobian that was asked for is not defined. -/
  | jacobian (mishap : Mishap)
  /-- Every attempt failed. -/
  | unconverged (details : Unconverged α)
  /-- A Jacobian that was asked for could not be factored. -/
  | notFactored
  deriving Repr, DecidableEq

/-- Must the solve not be tried again as it is? -/
def Fault.isFatal {α : Type} : Fault α → Bool
  | .unconverged _ => false
  | _ => true

/-- What ends an operation early. -/
inductive Halt (α : Type) where
  | fault (fault : Fault α)
  /-- A number was to be confined between limits that are not in order. -/
  | limitsOutOfOrder
  deriving Repr, DecidableEq

end AlgebraicLoop
