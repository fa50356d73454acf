import AlgebraicLoop.Linear.Reflection

/-!
# Bidiagonal form

Reflections from the left and from the right bring a square matrix to a form where only the diagonal
and the entries right above it are left. Place by place, one reflection clears the rest of a column
and another one clears the rest of its row. A row is divided by its length first, and this length is
taken without scaling: beyond the range of squares it is infinite or zero, and so is then the entry
above the diagonal.

* `Bidiagonal.reduce`: the bidiagonal form of a matrix, with the reflections that lead to it.
-/

namespace AlgebraicLoop
set_option autoImplicit false

/-- A matrix on its way to bidiagonal form. The one it came from is the product of the reflections
`left`, of `matrix`, and of the reflections `right` in reverse. -/
structure Bidiagonal (α : Type) (n : Nat) where
  matrix : Mat α n n
  left : List (Reflection α n)
  right : List (Reflection α n)

namespace Bidiagonal

section
variable {α : Type} [Scalar α] {n : Nat}

/-- Nothing is cleared yet. -/
def start (A : Mat α n n) : Bidiagonal α n := ⟨A, [], []⟩

/-- Clears column `k` below the diagonal. -/
def clearColumn (b : Bidiagonal α n) (k : Fin n) : Bidiagonal α n :=
  let (h, head) := Reflection.toward (b.matrix.column k) k
  let cleared := Vector.ofFn fun i => if i < k then b.matrix[i][k] else if i = k then head else 0
  { b with
    matrix := (h.applyColumns b.matrix).setColumn k cleared
    left := b.left ++ [h] }

/-- Clears row `k` behind place `next`, the one after the diagonal. -/
def clearRow (b : Bidiagonal α n) (k next : Fin n) : Bidiagonal α n :=
  let row := Vector.ofFn fun j => if k < j then b.matrix[k][j] else 0
  let length := sqrt (squareSum 1 row)
  let unit := if length == 0 then row else row.map (· * (1 / length))
  let (h, head) := Reflection.toward unit next
  let cleared := Vector.ofFn fun j =>
    if j = k then b.matrix[k][k] else if j = next then head * length else 0
  { b with
    matrix := (h.applyRows b.matrix).set k cleared k.isLt
    right := b.right ++ [h] }

/-- Clears column `k` and then row `k`. -/
def clear (b : Bidiagonal α n) (k : Fin n) : Bidiagonal α n :=
  let b := b.clearColumn k
  if h : k.val + 1 < n then b.clearRow k ⟨k.val + 1, h⟩ else b

/-- The bidiagonal form of a matrix. -/
def reduce (A : Mat α n n) : Bidiagonal α n := (List.finRange n).foldl clear (start A)

end

end Bidiagonal

end AlgebraicLoop
