import AlgebraicLoop.Linear.Basic

/-!
# Triangular systems

A triangular system is halved until at most four unknowns are left. Those are solved for one by one;
between the halves, what the solved half contributes is taken off the right-hand side of the other,
with one rounding per entry. A block of the system is the list of its places, in ascending order,
and the right-hand side turns into the solution place by place.

* `Mat.forwardSolve`: the solution of `T x = b` for a lower triangular `T`;
* `Mat.backwardSolve`: the same for an upper triangular `T`.
-/

namespace AlgebraicLoop
set_option autoImplicit false

/-- The most unknowns of a triangular system that are solved for without halving it. -/
def leafSize : Nat := 4

namespace Mat

section
variable {α : Type} [Scalar α] {n : Nat}

/-- The unknown at place `i`, where those at the places `solved` are known already: the right-hand
side less what they contribute, all multiplied by the inverse of the diagonal entry. -/
def unknown (T : Mat α n n) (solved : List (Fin n)) (i : Fin n) (x : Vector α n) : α :=
  let inverse := 1 / T[i][i]
  solved.foldl (fun sum j => sum + -(T[i][j] * inverse) * x[j]) (x[i] * inverse)

/-- Solves for the unknowns of a list in its order, those at the places `solved` being known. -/
def substitute (T : Mat α n n) : List (Fin n) → List (Fin n) → Vector α n → Vector α n
  | _, [], x => x
  | solved, i :: rest, x =>
    T.substitute (solved ++ [i]) rest (x.set i (T.unknown solved i x) i.isLt)

/-- Takes what the unknowns `solved` contribute off the right-hand sides of the rows `unsolved`. -/
def reduce (T : Mat α n n) (unsolved solved : List (Fin n)) (x : Vector α n) : Vector α n :=
  unsolved.foldl
    (fun x (i : Fin n) =>
      x.set i (solved.foldl (fun sum j => mulAdd T[i][j] (-x[j]) sum) x[i]) i.isLt) x

/-- Solves for a block of a lower triangular system, first half first. A block of `depth` or fewer
unknowns is solved in full. -/
def forwardBlock (T : Mat α n n) : Nat → List (Fin n) → Vector α n → Vector α n
  | 0, _, x => x
  | depth + 1, block, x =>
    if block.length ≤ leafSize then T.substitute [] block x
    else
      let (top, bottom) := block.splitAt (block.length / 2)
      T.forwardBlock depth bottom (T.reduce bottom top (T.forwardBlock depth top x))

/-- Solves for a block of an upper triangular system, second half first. A block of `depth` or fewer
unknowns is solved in full. -/
def backwardBlock (T : Mat α n n) : Nat → List (Fin n) → Vector α n → Vector α n
  | 0, _, x => x
  | depth + 1, block, x =>
    if block.length ≤ leafSize then T.substitute [] block.reverse x
    else
      let (top, bottom) := block.splitAt (block.length / 2)
      T.backwardBlock depth top (T.reduce top bottom (T.backwardBlock depth bottom x))

/-- The solution of `T x = b` for a lower triangular `T`. -/
def forwardSolve (T : Mat α n n) (b : Vector α n) : Vector α n :=
  T.forwardBlock n (List.finRange n) b

/-- The solution of `T x = b` for an upper triangular `T`. -/
def backwardSolve (T : Mat α n n) (b : Vector α n) : Vector α n :=
  T.backwardBlock n (List.finRange n) b

end

end Mat

end AlgebraicLoop
