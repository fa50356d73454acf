import AlgebraicLoop.Linear.Bidiagonal

/-!
# Singular values of a bidiagonal matrix

Rotations of neighbouring rows and columns make the entries above the diagonal vanish. One sweep
over a block of coupled entries starts with a rotation of columns that is chosen by a shift, an
eigenvalue of the last two rows and columns of `Bᵀ B`, and then drives the entry that leaves the
bidiagonal form down to the end of the block. A zero on the diagonal splits its block instead. What
is left on the diagonal are the singular values, up to their signs.

* `Band`: a bidiagonal matrix with the rotations made so far;
* `Band.sweep`, `Band.split`: one round over a block;
* `Band.settle?`: rounds until nothing is coupled, or `none`.
-/

namespace AlgebraicLoop
set_option autoImplicit false

/-- A bidiagonal matrix and the rotations that led to it, each of them made on the rows of `left` as
on the rows of the matrix, or on the rows of `right` as on its columns. -/
structure Band (α : Type) (n : Nat) where
  diagonal : Vector α n
  /-- Entry `k` stands right of diagonal entry `k` and couples it to the next one; the last entry
  is zero. -/
  above : Vector α n
  left : Mat α n n
  right : Mat α n n

/-- The pairs of neighbouring places. -/
def neighbours (n : Nat) : List (Fin n × Fin n) := (List.finRange n).zip (List.finRange n).tail

section
variable {α : Type} [Scalar α] {n : Nat}

/-- The cosine and sine of the rotation that takes `(x, y)` to `(r, 0)`. -/
def turnTo (x y : α) : α × α :=
  if y == 0 then (1, 0)
  else if abs x > abs y then
    let t := y / x
    let cosine := 1 / sqrt (1 + square t)
    (cosine, cosine * t)
  else
    let t := x / y
    let sine := 1 / sqrt (1 + square t)
    (sine * t, sine)

/-- Rows `p` and `q` rotated by the angle with the given cosine and sine. -/
def Mat.turn {m : Nat} (A : Mat α m n) (p q : Fin m) (angle : α × α) : Mat α m n :=
  let (c, s) := angle
  let u := A[p]
  let v := A[q]
  (A.set p (u.zipWith (fun x y => c * x + s * y) v) p.isLt).set q
    (u.zipWith (fun x y => c * y - s * x) v) q.isLt

namespace Band

/-- The bidiagonal part of a matrix times `c`, before any rotation. -/
def start (A : Mat α n n) (c : α) : Band α n where
  diagonal := Vector.ofFn fun k => A[k][k] * c
  above := Vector.ofFn fun k => if h : k.val + 1 < n then A[k][k.val + 1] * c else 0
  left := Mat.identity n
  right := Mat.identity n

/-- Entries that are negligible become zero: above the diagonal beside the two neighbours on it, on
the diagonal beside one. -/
def dropNegligible (b : Band α n) : Band α n :=
  let above := (neighbours n).foldl
    (fun above (k, next) =>
      if abs above[k] ≤ roundoff * (abs b.diagonal[k] + abs b.diagonal[next]) then
        above.set k 0 k.isLt
      else
        above)
    b.above
  { b with above, diagonal := b.diagonal.map fun x => if abs x ≤ roundoff then 0 else x }

/-- The neighbours in the last block of coupled places. -/
def lastBlock (b : Band α n) : List (Fin n × Fin n) :=
  (((neighbours n).reverse.dropWhile fun (k, _) => b.above[k] == 0).takeWhile
    fun (k, _) => !(b.above[k] == 0)).reverse

/-- Are all entries of a block finite? -/
def isFiniteOn (b : Band α n) (block : List (Fin n × Fin n)) : Bool :=
  block.all fun (k, next) =>
    isFinite b.above[k] && isFinite b.diagonal[k] && isFinite b.diagonal[next]

/-- Frees place `k`, where the diagonal is zero, from the places after it: row `k` is rotated with
each of the rows behind it, and what it then holds moves to the right and out of the block. -/
def split (b : Band α n) (k : Fin n) (behind : List (Fin n)) : Band α n :=
  (behind.foldl
    (fun (b, x) j =>
      let (c, s) := turnTo b.diagonal[j] x
      ({ b with
          diagonal := b.diagonal.set j (c * b.diagonal[j] + s * x) j.isLt
          above := b.above.set j (c * b.above[j]) j.isLt
          left := b.left.turn j k (c, s) },
        -(s * b.above[j])))
    ({ b with above := b.above.set k 0 k.isLt }, b.above[k])).1

/-- The eigenvalue nearer to the last one on the diagonal, among those of the last two rows and
columns of `Bᵀ B`, for a block given from its end. -/
def shift (b : Band α n) : List (Fin n × Fin n) → α
  | [] => 0
  | (p, q) :: before =>
    let coupled := match before with
      | [] => 0
      | (o, _) :: _ => square b.above[o]
    let first := square b.diagonal[p] + coupled
    let last := square b.diagonal[q] + square b.above[p]
    let off := square (b.diagonal[p] * b.above[p])
    let half := (first - last) / 2
    if off > leastNormal then
      last - off / (half + copySign (sqrt (square half + off)) half)
    else
      last

/-- One step of a sweep: the rotation of columns `k` and `next` that takes `(x, y)` to `(r, 0)`, and
the rotation of the same rows that clears the entry below the diagonal. Gives the entry behind
`next` in row `k` with the one it is rotated with. -/
def sweepStep (b : Band α n) (x y : α) (k next : Fin n) : Band α n × α × α :=
  let (c, s) := turnTo x y
  let d := c * b.diagonal[k] + s * b.above[k]
  let a := c * b.above[k] - s * b.diagonal[k]
  let below := s * b.diagonal[next]
  let e := c * b.diagonal[next]
  let right := b.right.turn k next (c, s)
  let (c, s) := turnTo d below
  let coupling := c * a + s * e
  let behind := s * b.above[next]
  ({ diagonal := (b.diagonal.set k (c * d + s * below) k.isLt).set next (c * e - s * a) next.isLt
     above := (b.above.set k coupling k.isLt).set next (c * b.above[next]) next.isLt
     left := b.left.turn k next (c, s)
     right }, coupling, behind)

/-- The steps of a sweep from the given neighbours on. `before` is the place before them. -/
def sweepFrom : List (Fin n × Fin n) → Option (Fin n) → α → α → Band α n → Band α n
  | [], _, _, _, b => b
  | (k, next) :: rest, before, x, y, b =>
    let (c, s) := turnTo x y
    let b := match before with
      | none => b
      | some p => { b with above := b.above.set p (c * x + s * y) p.isLt }
    let (b, x, y) := b.sweepStep x y k next
    sweepFrom rest (some k) x y b

/-- One sweep over a block. -/
def sweep (b : Band α n) (block : List (Fin n × Fin n)) : Band α n :=
  match block with
  | [] => b
  | (k, _) :: _ =>
    sweepFrom block none (square b.diagonal[k] - b.shift block.reverse)
      (b.diagonal[k] * b.above[k]) b

/-- One round over a block: it is split at the first zero of its diagonal, the last one aside, or
swept over. -/
def round (b : Band α n) (block : List (Fin n × Fin n)) : Band α n :=
  match block.dropWhile fun (k, _) => !(b.diagonal[k] == 0) with
  | [] => b.sweep block
  | (k, next) :: rest => b.split k (next :: rest.map (·.2))

/-- Rounds until nothing is coupled. `none` after `budget` rounds, and where a block holds a number
that is not finite, which no rotation removes. -/
def settle? : Nat → Band α n → Option (Band α n)
  | 0, _ => none
  | budget + 1, b =>
    let b := b.dropNegligible
    match b.lastBlock with
    | [] => some b
    | block => if b.isFiniteOn block then settle? budget (b.round block) else none

end Band

end

end AlgebraicLoop
