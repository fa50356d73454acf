import AlgebraicLoop.Linear.Elimination
import AlgebraicLoop.Linear.SingularValues

/-!
# Least-squares solutions of least norm

The singular values of a square matrix `A` are those of its bidiagonal form. Values that are
negligible beside the greatest one count as zero; the others, with the unit vectors `u` and `v` that
belong to them, give the pseudoinverse, the sum of the products `v uᵀ / value`.

* `SingularTriple`: a singular value with its two vectors;
* `LeastNorm.factor`: the pseudoinverse and the numerical rank of a matrix;
* `LeastNorm.solve`: the shortest of the vectors that minimise `‖A x - b‖`.
-/

namespace AlgebraicLoop
set_option autoImplicit false

/-- A singular value with the unit vectors that belong to it: `A right = value * left`. -/
structure SingularTriple (α : Type) (n : Nat) where
  value : α
  left : Vector α n
  right : Vector α n

section
variable {α : Type} [Scalar α] {n : Nat}

/-- The singular value on place `k` of a settled bidiagonal matrix that was divided by `unit`; the
right vector takes over a negative sign. -/
def Band.triple (b : Band α n) (unit : α) (k : Fin n) : SingularTriple α n :=
  let value := b.diagonal[k] * unit
  let right := b.right[k]
  ⟨abs value, b.left[k], if value < 0 then right.map (-·) else right⟩

/-- The singular values of a finite matrix with their vectors. The bidiagonal form is divided by its
greatest entry before it is diagonalised. -/
def singularTriples? (A : Mat α n n) : Option (Vector (SingularTriple α n) n) :=
  let reduced := Bidiagonal.reduce A
  let band := Band.start reduced.matrix 1
  let size := larger (maxNorm band.diagonal) (maxNorm band.above)
  let unit := if size == 0 then 1 else size
  ((Band.start reduced.matrix (1 / unit)).settle? (30 * n * n + 1)).map fun settled =>
    Vector.ofFn fun k =>
      let t := settled.triple unit k
      ⟨t.value, Reflection.applyAll reduced.left t.left, Reflection.applyAll reduced.right t.right⟩

/-- A pseudoinverse with its numerical rank. -/
structure LeastNorm (α : Type) (n : Nat) where
  inverse : Mat α n n
  rank : Nat

namespace LeastNorm

/-- The pseudoinverse that belongs to the greatest singular values, those above `roundoff · n` times
the greatest one, which are added up in descending order. -/
def ofTriples (triples : Vector (SingularTriple α n) n) : LeastNorm α n :=
  let cutoff := roundoff * Scalar.ofNat n * maxNorm (triples.map (·.value))
  let kept := (triples.toList.filter fun t => t.value > cutoff).mergeSort
    fun t u => decide (u.value ≤ t.value)
  ⟨Mat.ofFn fun i j => chainedSum (kept.map fun t => (t.right[i], t.left[j] * (1 / t.value))),
    kept.length⟩

/-- The pseudoinverse of a finite matrix. -/
def factor (A : Mat α n n) : Except (Refusal α) (LeastNorm α n) :=
  if A.isFinite then
    match singularTriples? A with
    | none => .error .notDiagonalised
    | some triples =>
      if allFinite (triples.map (·.value)) then .ok (ofTriples triples)
      else .error .singularValuesNotFinite
  else
    .error .notFinite

/-- The least-squares solution of least norm. -/
def solve (f : LeastNorm α n) (b : Vector α n) : Vector α n := f.inverse.apply b

end LeastNorm

end

end AlgebraicLoop
