import AlgebraicLoop.Indexing
import AlgebraicLoop.Scalar

/-!
# Vectors and dense matrices

A vector is a `Vector α n`, a matrix (`Mat`) a vector of its rows. Sums run over the entries in
order, starting from zero, where nothing else is said.

* `total`, `dot`, `maxNorm`: sum, inner product, greatest absolute entry;
* `fusedDot`, `chainedSum`, `interleavedDot`: inner products that round once per entry, and differ
  in the order of the sum and in how it starts;
* `Mat.apply`, `Mat.applyTranspose`: the products `A x` and `Aᵀ y`;
* `Mat.weightedNormal`: the product `Aᵀ W² A` for a diagonal `W`.
-/

namespace AlgebraicLoop
set_option autoImplicit false

/-- A matrix, by rows. -/
abbrev Mat (α : Type) (m n : Nat) : Type := Vector (Vector α n) m

section
variable {α : Type} [Scalar α] {m n : Nat}

/-- The sum of the entries. -/
def total (v : Vector α n) : α := v.foldl (· + ·) 0

/-- The inner product. -/
def dot (u v : Vector α n) : α := total (u.zipWith (· * ·) v)

/-- The inner product with one rounding per entry, in order. -/
def fusedDot (u v : Vector α n) : α := (u.zip v).foldl (fun sum (x, y) => mulAdd x y sum) 0

/-- The sum of products with one rounding each, in order, where the first product is the start of
the sum and so keeps the sign of a zero. -/
def chainedSum : List (α × α) → α
  | [] => 0
  | (x, y) :: rest => rest.foldl (fun sum (x, y) => mulAdd x y sum) (x * y)

/-- The part of the inner product that belongs to the entries at places `lane`, `lane + 4`, … -/
def laneDot (lane : Nat) (u v : Vector α n) : α :=
  ((List.finRange n).filter fun i => i.val % 4 = lane).foldl
    (fun sum i => mulAdd u[i] v[i] sum) 0

/-- The inner product as the sum of four lanes, those two apart added first. -/
def interleavedDot (u v : Vector α n) : α :=
  (laneDot 0 u v + laneDot 2 u v) + (laneDot 1 u v + laneDot 3 u v)

/-- The greatest absolute value of an entry, a NaN left out; zero for the empty vector. -/
def maxNorm (v : Vector α n) : α := v.foldl (fun norm x => larger norm (abs x)) 0

/-- Is every entry finite? -/
def allFinite (v : Vector α n) : Bool := v.all isFinite

namespace Mat

/-- The matrix with the given entries. -/
def ofFn (entry : Fin m → Fin n → α) : Mat α m n :=
  Vector.ofFn fun i => Vector.ofFn fun j => entry i j

/-- The zero matrix. -/
def zero (m n : Nat) : Mat α m n := ofFn fun _ _ => 0

/-- Column `j`. -/
def column (A : Mat α m n) (j : Fin n) : Vector α m := A.map fun row => row[j]

/-- The matrix with column `j` replaced. -/
def setColumn (A : Mat α m n) (j : Fin n) (c : Vector α m) : Mat α m n :=
  A.zipWith (fun row x => row.set j x j.isLt) c

/-- The transposed matrix. -/
def transpose (A : Mat α m n) : Mat α n m := Vector.ofFn A.column

/-- The identity matrix. -/
def identity (n : Nat) : Mat α n n := ofFn fun i j => if i = j then 1 else 0

/-- The product `A x`. -/
def apply (A : Mat α m n) (x : Vector α n) : Vector α m := A.map fun row => fusedDot row x

/-- The product `Aᵀ y`. -/
def applyTranspose (A : Mat α m n) (y : Vector α m) : Vector α n :=
  A.transpose.map fun column => interleavedDot column y

/-- Row `i` multiplied by `w i`. -/
def scaleRows (w : Vector α m) (A : Mat α m n) : Mat α m n :=
  A.zipWith (fun row c => row.map (c * ·)) w

/-- The weighted normal matrix `Aᵀ W² A`, where `W` is the diagonal matrix of `w`. -/
def weightedNormal (A : Mat α m n) (w : Vector α m) : Mat α n n :=
  let columns := (A.scaleRows w).transpose
  ofFn fun j k => chainedSum (columns[j].zip columns[k]).toList

/-- The greatest absolute value of an entry. -/
def maxEntry (A : Mat α m n) : α := maxNorm (A.map maxNorm)

/-- The greatest absolute column sum. -/
def oneNorm (A : Mat α m n) : α :=
  maxNorm (A.transpose.map fun column => total (column.map abs))

/-- Is every entry finite? -/
def isFinite (A : Mat α m n) : Bool := A.all allFinite

end Mat

end

end AlgebraicLoop
