import AlgebraicLoop.Box
import AlgebraicLoop.Linear.MinimumNorm
import AlgebraicLoop.Pattern

/-!
# The workspace of a block

What a block remembers between iterations and between solves: the Jacobian and its factorization,
the scales, and marks that say what is still good.

* `Memory`: the part that a checkpoint keeps;
* `Checkpoint`: such a part together with the point it belongs to;
* `Workspace`: the whole of it, with `save` and `rewind`.
-/

namespace AlgebraicLoop
set_option autoImplicit false

/-- What is done with the next Jacobian that cannot be factored. -/
inductive RecoveryMode where
  /-- Solve the regularized normal equations. -/
  | regularization
  /-- Take the least-squares step of least norm. -/
  | minimumNorm
  deriving Repr, DecidableEq

/-- The factorization that the next step is computed with. -/
inductive Factorization (α : Type) (n : Nat) where
  | none
  /-- Of the Jacobian. -/
  | lu (factors : LU α n)
  /-- Of the regularized normal matrix. -/
  | regularized (factors : LU α n)
  /-- The pseudoinverse of the Jacobian. -/
  | minimumNorm (factors : LeastNorm α n)
  /-- A single unknown whose Jacobian is zero: steps follow a sign rule. -/
  | scalar

/-- Does the factorization stand in for one that failed? -/
def Factorization.isRecovery {α : Type} {n : Nat} : Factorization α n → Bool
  | .none | .lu _ => false
  | .regularized _ | .minimumNorm _ | .scalar => true

/-- Is there a factorization? -/
def Factorization.isPresent {α : Type} {n : Nat} : Factorization α n → Bool
  | .none => false
  | _ => true

/-- Marks on the workspace. -/
structure Flags where
  /-- The Jacobian can be used. -/
  jacobianCurrent : Bool := false
  /-- The last factorization failed. -/
  singular : Bool := false
  /-- The residual scales must be computed anew before the next solve. -/
  forceRescaling : Bool := false
  /-- The next iteration must evaluate a fresh Jacobian. -/
  forceNewJacobian : Bool := false
  /-- Take steepest-descent steps until no bound is active. -/
  useSteepestDescent : Bool := false
  /-- Some residual scale had to be clamped. -/
  poorlyScaled : Bool := false
  deriving Repr, DecidableEq

/-- The part of the workspace that a checkpoint keeps. -/
structure Memory (α : Type) (n : Nat) where
  jacobian : Mat α n n
  factorization : Factorization α n
  variableScale : Vector α n
  residualScale : Vector α n
  flags : Flags
  /-- The scaled Jacobian was found too ill-conditioned to be used as it is. -/
  premarkedSingular : Bool
  recovery : RecoveryMode
  /-- How often the Jacobian has changed. -/
  generation : Nat
  /-- The generation of the Jacobian that was factored last. -/
  factoredGeneration : Option Nat
  /-- Iterations since the Jacobian was evaluated. -/
  jacobianAge : Nat
  /-- The last norm of the scaled residual. -/
  lastNorm : α

/-- A point with the memory that belongs to it. -/
structure Checkpoint (α : Type) (n : Nat) where
  x : Vector α n
  memory : Memory α n

/-- The last accepted step of an attempt and the residual before it. -/
structure StepHistory (α : Type) (n : Nat) where
  step : Vector α n
  residual : Vector α n

/-- Everything a block remembers of its solves. -/
structure Workspace (α : Type) (n : Nat) extends Memory α n where
  box : Box α n
  history : Option (StepHistory α n)
  /-- The dependency pattern, when columns are differenced in groups. -/
  pattern : Option (Pattern n n)
  /-- The Jacobian was evaluated at the current point. -/
  jacobianAtPoint : Bool
  /-- The first attempt of a solve is running. -/
  firstAttempt : Bool
  /-- The rescaled retry of a solve is running. -/
  retrying : Bool
  jacobianMismatches : Nat
  /-- The checkpoint of the last accepted outer step. -/
  accepted : Option (Checkpoint α n)
  /-- Bounds, scales of the unknowns and the pattern have been set up. -/
  ready : Bool

namespace Workspace
variable {α : Type} [Scalar α] {n : Nat}

/-- The workspace before the first solve. -/
def fresh (n : Nat) : Workspace α n where
  jacobian := Mat.zero n n
  factorization := .none
  variableScale := Vector.replicate n 1
  residualScale := Vector.replicate n 1
  flags := {}
  premarkedSingular := false
  recovery := .regularization
  generation := 0
  factoredGeneration := none
  jacobianAge := 0
  lastNorm := infinity
  box := Box.unbounded n
  history := none
  pattern := none
  jacobianAtPoint := false
  firstAttempt := false
  retrying := false
  jacobianMismatches := 0
  accepted := none
  ready := false

/-- The Jacobian has changed; factorizations of the old one no longer count. -/
def jacobianChanged (w : Workspace α n) : Workspace α n :=
  { w with generation := w.generation + 1, flags.jacobianCurrent := true }

/-- Does the factorization belong to the current Jacobian? -/
def isFactored (w : Workspace α n) : Bool :=
  w.factoredGeneration == some w.generation && w.factorization.isPresent

/-- A checkpoint of the workspace at `x`. -/
def save (w : Workspace α n) (x : Vector α n) : Checkpoint α n := ⟨x, w.toMemory⟩

/-- The workspace with the memory of a checkpoint. What the checkpoint does not vouch for is
dropped. -/
def rewind (w : Workspace α n) (c : Checkpoint α n) : Workspace α n :=
  { w with toMemory := c.memory, jacobianAtPoint := false, history := none }

end Workspace

end AlgebraicLoop
