import AlgebraicLoop.Linear.Triangular

/-!
# Gaussian elimination with row pivoting

`eliminate` factors a square matrix column by column: it brings the row with the greatest leading
entry to the top, divides by that pivot, and goes on with the block that is left, where each entry
is reduced with a single rounding. With the row exchanges as a permutation `P`, the factors are a
lower triangular matrix with ones on its diagonal and an upper triangular one, and
`P A = lower * upper`. `Factors.solve` permutes a right-hand side and solves with the one and then
with the other.

* `LU.factor`: the factorization of a matrix, refused when an entry is infinite or a pivot is
  negligible beside the greatest entry;
* `LU.solve`, `LU.reciprocalCondition`: solutions and `1 / (‖A‖₁ ‖A⁻¹‖₁)`.
-/

namespace AlgebraicLoop
set_option autoImplicit false

/-- Why a matrix is not factored or a right-hand side not solved for. -/
inductive Refusal (α : Type) where
  | notSquare (rows columns : Nat)
  | notFinite
  | singularPivot (pivot : α) (column : Nat)
  | notDiagonalised
  | singularValuesNotFinite
  | nothingFactored
  | wrongLength (length size : Nat)
  deriving Repr

/-- The factors of a square matrix, one elimination step per column. -/
inductive Factors (α : Type) : Nat → Type where
  | done : Factors α 0
  /-- One step: the row that came to the top, its leading entry, the rest of that row, the
  multipliers of the rows below, and the factors of the block that is left. -/
  | step {n : Nat} (source : Fin (n + 1)) (pivot : α) (right : Vector α n)
      (below : Vector α n) (rest : Factors α n) : Factors α (n + 1)

section
variable {α : Type} [Scalar α]

/-- All entries but the first. -/
def afterFirst {β : Type} {n : Nat} (v : Vector β (n + 1)) : Vector β n :=
  Vector.ofFn fun i => v[i.val + 1]

/-- The vector with `x` before the entries of `v`. -/
def consFirst {β : Type} {n : Nat} (x : β) (v : Vector β n) : Vector β (n + 1) :=
  Vector.ofFn fun i => if h : i.val = 0 then x else v[i.val - 1]

/-- The first row whose leading entry has the greatest absolute value; a NaN is passed over. -/
def pivotRow {m n : Nat} (A : Mat α (m + 1) (n + 1)) : Fin (m + 1) :=
  ((List.finRange (m + 1)).foldl
    (fun (best, size) i => if abs A[i][0] > size then (i, abs A[i][0]) else (best, size))
    ((0 : Fin (m + 1)), (0 : α))).1

/-- Elimination of all columns. `column` counts those already eliminated; a pivot that is not
finite, zero, or at most `threshold` in absolute value is refused. -/
def eliminate (threshold : α) :
    {n : Nat} → (column : Nat) → Mat α n n → Except (Refusal α) (Factors α n)
  | 0, _, _ => .ok .done
  | n + 1, column, A =>
    let source := pivotRow A
    let B := A.swap 0 source
    let pivot := B[0][0]
    if !isFinite pivot || pivot == 0 || decide (abs pivot ≤ threshold) then
      .error (.singularPivot pivot column)
    else
      let inverse := 1 / pivot
      let right : Vector α n := afterFirst B[0]
      let lower : Mat α n (n + 1) := afterFirst B
      let below : Vector α n := lower.map fun row => row[0] * inverse
      let block : Mat α n n :=
        lower.zipWith
          (fun row c => (afterFirst row).zipWith (fun x u => mulAdd (-c) u x) right) below
      (eliminate threshold (column + 1) block).map (.step source pivot right below)

namespace Factors

/-- The entries of a vector in the order the rows were brought to. -/
def permute {β : Type} : {n : Nat} → Factors α n → Vector β n → Vector β n
  | 0, .done, b => b
  | _ + 1, .step source _ _ _ rest, b =>
    let exchanged := b.swap 0 source
    consFirst exchanged[0] (rest.permute (afterFirst exchanged))

/-- The lower triangular factor, with ones on its diagonal. -/
def lower : {n : Nat} → Factors α n → Mat α n n
  | 0, .done => #v[]
  | _ + 1, .step _ _ _ below rest =>
    consFirst (consFirst 1 (Vector.replicate _ 0))
      ((rest.permute below).zipWith consFirst rest.lower)

/-- The upper triangular factor. -/
def upper : {n : Nat} → Factors α n → Mat α n n
  | 0, .done => #v[]
  | _ + 1, .step _ pivot right _ rest =>
    consFirst (consFirst pivot right) (rest.upper.map (consFirst 0))

/-- The solution of `A x = b` from the factors of `A`. -/
def solve {n : Nat} (f : Factors α n) (b : Vector α n) : Vector α n :=
  f.upper.backwardSolve (f.lower.forwardSolve (f.permute b))

/-- The columns of the inverse matrix, as rows. -/
def inverseColumns {n : Nat} (f : Factors α n) : Mat α n n :=
  let lower := f.lower
  let upper := f.upper
  (Mat.identity n).map fun b => upper.backwardSolve (lower.forwardSolve (f.permute b))

end Factors

/-- An accepted factorization of an `n × n` matrix. -/
structure LU (α : Type) (n : Nat) where
  factors : Factors α n
  /-- The greatest absolute column sum of the factored matrix. -/
  oneNorm : α

namespace LU
variable {n : Nat}

/-- Factors a square matrix. A pivot at most the roundoff times the greatest entry is refused; a NaN
entry is not the greatest one and comes to light in a pivot. -/
def factor (A : Mat α n n) : Except (Refusal α) (LU α n) :=
  if isFinite A.maxEntry then
    (eliminate (roundoff * A.maxEntry) 0 A).map (⟨·, A.oneNorm⟩)
  else
    .error .notFinite

/-- The solution of `A x = b`. -/
def solve (lu : LU α n) (b : Vector α n) : Vector α n := lu.factors.solve b

/-- The reciprocal condition number `1 / (‖A‖₁ ‖A⁻¹‖₁)`; zero for the empty matrix and when the
inverse is not finite. -/
def reciprocalCondition (lu : LU α n) : α :=
  if n = 0 ∨ lu.oneNorm == 0 then 0
  else
    let inverseNorm := maxNorm (lu.factors.inverseColumns.map fun column => total (column.map abs))
    if isFinite inverseNorm then 1 / (lu.oneNorm * inverseNorm) else 0

end LU

end

end AlgebraicLoop
