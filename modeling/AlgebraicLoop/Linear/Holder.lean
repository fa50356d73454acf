import AlgebraicLoop.Linear.MinimumNorm

/-!
# Solvers that hold one factorization

`EliminationSolver` and `LeastNormSolver` take matrices of any shape one after another and answer
for the last one. A refused matrix leaves nothing to solve with.
-/

namespace AlgebraicLoop
set_option autoImplicit false

/-- A matrix together with its shape. -/
structure SizedMat (α : Type) where
  rows : Nat
  columns : Nat
  entries : Mat α rows columns

/-- A right-hand side of the right length, or the refusal of a wrong one. -/
def fitLength {α : Type} (b : Array α) (n : Nat) : Except (Refusal α) (Vector α n) :=
  if h : b.size = n then .ok ⟨b, h⟩ else .error (.wrongLength b.size n)

/-- A square matrix, or the refusal of one that is not. -/
def SizedMat.square? {α : Type} (A : SizedMat α) : Except (Refusal α) (Mat α A.rows A.rows) :=
  if h : A.columns = A.rows then .ok (h ▸ A.entries) else .error (.notSquare A.rows A.columns)

section
variable {α : Type} [Scalar α]

/-- A solver by elimination for the matrix it was given last. -/
structure EliminationSolver (α : Type) where
  held : Option ((n : Nat) × LU α n) := none

namespace EliminationSolver

/-- Takes a new matrix; a refused one leaves the solver empty. -/
def factor (_ : EliminationSolver α) (A : SizedMat α) :
    Except (Refusal α) Unit × EliminationSolver α :=
  match A.square?.bind LU.factor with
  | .ok lu => (.ok (), ⟨some ⟨A.rows, lu⟩⟩)
  | .error refusal => (.error refusal, ⟨none⟩)

/-- The solution of `A x = b` for the held matrix. -/
def solve (s : EliminationSolver α) (b : Array α) : Except (Refusal α) (Array α) :=
  match s.held with
  | none => .error .nothingFactored
  | some ⟨n, lu⟩ => (fitLength b n).map fun b => (lu.solve b).toArray

/-- The reciprocal condition number of the held matrix. -/
def reciprocalCondition (s : EliminationSolver α) : Except (Refusal α) α :=
  match s.held with
  | none => .error .nothingFactored
  | some ⟨_, lu⟩ => .ok lu.reciprocalCondition

end EliminationSolver

/-- A least-norm solver for the matrix it was given last. -/
structure LeastNormSolver (α : Type) where
  held : Option ((n : Nat) × LeastNorm α n) := none
  /-- The rank of the last matrix that was accepted. -/
  rank : Nat := 0

namespace LeastNormSolver

/-- Takes a new matrix; a refused one leaves nothing to solve with and the rank as it was. -/
def factor (s : LeastNormSolver α) (A : SizedMat α) :
    Except (Refusal α) Unit × LeastNormSolver α :=
  match A.square?.bind LeastNorm.factor with
  | .ok f => (.ok (), ⟨some ⟨A.rows, f⟩, f.rank⟩)
  | .error refusal => (.error refusal, { s with held := none })

/-- The least-norm solution for the held matrix. -/
def solve (s : LeastNormSolver α) (b : Array α) : Except (Refusal α) (Array α) :=
  match s.held with
  | none => .error .nothingFactored
  | some ⟨n, f⟩ => (fitLength b n).map fun b => (f.solve b).toArray

end LeastNormSolver

end

end AlgebraicLoop
