import AlgebraicLoop.Failure
import AlgebraicLoop.Pattern
import AlgebraicLoop.Linear.Basic

/-!
# Models

A model is asked for the residual `F(x)` of a loop and for what surrounds it. It may keep a state of
any type `σ`; every request takes that state and returns it with the answer, also when it fails.

* `StartValues`: what a model says about its unknowns before the first solve;
* `Writing`: a request to write into a matrix that the model is handed;
* `Model`: the answers of a model to every request.
-/

namespace AlgebraicLoop
set_option autoImplicit false

/-- What a model says about its unknowns. The lengths are checked when the values are taken. -/
structure StartValues (α : Type) where
  /-- Typical magnitudes; the greatest finite number marks an unknown one. -/
  nominal : Array α
  lower : Array α
  upper : Array α
  initial : Array α
  deriving Repr

/-- The values a model starts from: nothing known, no bounds, all unknowns zero. -/
def StartValues.default {α : Type} [Scalar α] (n : Nat) : StartValues α where
  nominal := Array.replicate n greatest
  lower := Array.replicate n (-infinity)
  upper := Array.replicate n infinity
  initial := Array.replicate n 0

/-- A request's answer, with the model's next state. -/
abbrev Answer (σ β : Type) : Type := σ → Except EvalFailure β × σ

/-- A request to write into a matrix, by the matrix that is handed over: how the request ends, what the
matrix holds then, and the model's next state. A request that fails may have written part of it. -/
structure Writing (α σ : Type) (n : Nat) where
  run : Mat α n n → (Except EvalFailure Unit × Mat α n n) × σ

namespace Writing
variable {α σ : Type} {n : Nat}

/-- What the matrix holds after the request. -/
def left (w : Writing α σ n) (A : Mat α n n) : Mat α n n := (w.run A).1.2

/-- The answer, which is the matrix as it is then, with the model's next state. -/
def answer (w : Writing α σ n) (A : Mat α n n) : Except EvalFailure (Mat α n n) × σ :=
  ((w.run A).1.1.map fun () => w.left A, (w.run A).2)

/-- All of the matrix is written, or nothing where there is none to write. -/
def whole : Except EvalFailure (Mat α n n) × σ → Writing α σ n
  | (.ok B, s) => ⟨fun _ => ((.ok (), B), s)⟩
  | (.error failure, s) => ⟨fun A => ((.error failure, A), s)⟩

/-- A model may work out the matrix before it writes it. -/
instance : Coe (Except EvalFailure (Mat α n n) × σ) (Writing α σ n) := ⟨whole⟩

end Writing

/-- The residual of a loop with `n` unknowns. -/
structure Model (α σ : Type) (n : Nat) where
  /-- Nominal values, bounds and the initial guess, given the default ones. -/
  start : StartValues α → Answer σ (StartValues α)
  /-- The residual at a point. -/
  evaluate : Vector α n → Answer σ (Vector α n)
  /-- Brings outputs up to date that are not solved for. -/
  evaluateAuxiliary : Vector α n → Answer σ Unit
  /-- Takes over the final iterate. -/
  writeBack : Vector α n → Answer σ Unit
  /-- Typical magnitudes of the residuals, where known; zero means not known. -/
  residualNominals : σ → Option (Vector α n)
  /-- The Jacobian at a point, written into a matrix, for a model that can compute it. -/
  jacobian : Option (Vector α n → σ → Writing α σ n)
  /-- The derivative at a point along a direction, for a model that can compute it. -/
  directional : Option (Vector α n → Vector α n → Answer σ (Vector α n))
  /-- Which residuals depend on which unknowns, where known. -/
  pattern : σ → Option SizedPattern

/-- A model that only evaluates its residual, which is a function of the point. -/
def Model.ofFunction {α : Type} {n : Nat} (f : Vector α n → Except EvalFailure (Vector α n)) :
    Model α Unit n where
  start values s := (.ok values, s)
  evaluate x s := (f x, s)
  evaluateAuxiliary _ s := (.ok (), s)
  writeBack _ s := (.ok (), s)
  residualNominals _ := none
  jacobian := none
  directional := none
  pattern _ := none

/-- One request to a model with its answer. -/
inductive Call (α : Type) (n : Nat) where
  | start (answer : Except EvalFailure (StartValues α))
  | evaluate (x : Vector α n) (answer : Except EvalFailure (Vector α n))
  | evaluateAuxiliary (x : Vector α n) (answer : Except EvalFailure Unit)
  | writeBack (x : Vector α n) (answer : Except EvalFailure Unit)
  | jacobian (x : Vector α n) (answer : Except EvalFailure (Mat α n n))
  | directional (x direction : Vector α n) (answer : Except EvalFailure (Vector α n))

end AlgebraicLoop
