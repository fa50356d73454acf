import AlgebraicLoop.Failure

/-!
# What a solve reports

* `StepKind`, `IterationRecord`: how an iteration got its step, and what came of it;
* `RunRecord`, `Attempt`: the iterations of one attempt, and whether it stopped short;
* `Report`: the sum of all attempts of a successful solve.
-/

namespace AlgebraicLoop
set_option autoImplicit false

/-- How a step was computed. -/
inductive StepKind where
  /-- From the factored Jacobian. -/
  | newton
  /-- From the regularized normal equations, or by the sign rule for one unknown. -/
  | regularized
  /-- The least-squares step of least norm. -/
  | minimumNorm
  | steepestDescent
  deriving Repr, DecidableEq

/-- One accepted iteration. -/
structure IterationRecord (α : Type) where
  /-- Counted from one within its attempt. -/
  iteration : Nat
  /-- The greatest scaled residual after the step. -/
  residualNorm : α
  /-- The scaled length of the step that was taken. -/
  stepNorm : α
  /-- The part of the computed step that was taken. -/
  damping : α
  stepKind : StepKind
  /-- Was the Jacobian evaluated for this iteration? -/
  freshJacobian : Bool
  deriving Repr

/-- The iterations of one attempt. -/
structure RunRecord (α : Type) where
  iterations : Nat
  residualNorm : α
  stepNorm : α
  trace : Array (IterationRecord α)
  deriving Repr

/-- An attempt that is over. -/
structure Attempt (α : Type) where
  record : RunRecord α
  /-- Why it stopped short of its exit criterion; `none` when it did not. -/
  failure : Option FailureReason
  deriving Repr

/-- What a solve did, over all its attempts. -/
structure Report (α : Type) where
  iterations : Nat
  attempts : Nat
  residualNorm : α
  stepNorm : α
  /-- Was the solution refined between two bracketing points? -/
  refined : Bool
  /-- Entries of exact Jacobians that disagreed with difference quotients. -/
  jacobianMismatches : Nat
  trace : Array (IterationRecord α)
  deriving Repr

section
variable {α : Type} [Scalar α]

/-- No iterations yet. -/
def RunRecord.empty : RunRecord α := ⟨0, 0, 0, #[]⟩

namespace RunRecord

/-- The record with one more iteration. -/
def push (r : RunRecord α) (it : IterationRecord α) : RunRecord α where
  iterations := r.iterations + 1
  residualNorm := it.residualNorm
  stepNorm := it.stepNorm
  trace := r.trace.push it

/-- The attempt that met its exit criterion. -/
def converged (r : RunRecord α) : Attempt α := ⟨r, none⟩

/-- The attempt that stopped short. -/
def stopped (r : RunRecord α) (reason : FailureReason) : Attempt α := ⟨r, some reason⟩

end RunRecord

/-- Did the attempt stop short? -/
def Attempt.failed (a : Attempt α) : Bool := a.failure.isSome

/-- No attempts yet. -/
def Report.empty : Report α := ⟨0, 0, 0, 0, false, 0, #[]⟩

/-- The report with one more attempt. -/
def Report.add (report : Report α) (attempt : Attempt α) : Report α :=
  { report with
    attempts := report.attempts + 1
    iterations := report.iterations + attempt.record.iterations
    residualNorm := attempt.record.residualNorm
    stepNorm := attempt.record.stepNorm
    trace := report.trace ++ attempt.record.trace }

end

end AlgebraicLoop
