import AlgebraicLoop.Session

/-!
# Jacobians from differences

Column `j` of a Jacobian is the change of the residual along unknown `j`, divided by the move. A
one-sided quotient moves away from a bound and, where the residual is undefined, to the other side.
A two-sided quotient moves to both sides as far as the bounds allow. Columns that share no row can
be differenced with one evaluation.

* `differences`: the columns one after another, one- or two-sided;
* `compressedDifferences`: the columns group by group.

Both put the columns into a matrix as they become known, and hand out that matrix each time.
-/

namespace AlgebraicLoop
set_option autoImplicit false

section
variable {α σ : Type} [Scalar α] {n : Nat}

/-- The move along an unknown: relative to its size, or to its typical size where that is greater,
and away from zero. -/
def increment (x scale delta : α) : α :=
  let size := larger (abs x) (1 / scale) * delta
  if x < 0 then -size else size

/-- The move turned round where it would leave the bounds. -/
def inwardIncrement (x scale delta lower upper : α) : α :=
  let move := increment x scale delta
  if x + move > upper ∨ x + move < lower then -move else move

/-- The change from `f` to `g`, divided by the width. -/
def quotients (g f : Vector α n) (width : α) : Vector α n :=
  g.zipWith (fun a b => (a - b) / width) f

/-- The one-sided column of unknown `j` at `x`, where the residual is `f`. -/
def oneSidedColumn (P : Problem α σ n) (scale x f : Vector α n) (j : Fin n) :
    Action α σ n (Except Mishap (Vector α n)) := do
  let s ← get
  let move := inwardIncrement x[j] scale[j] P.options.differenceStep s.lower[j] s.upper[j]
  let ahead := x[j] + move
  match ← evaluate P (x.set j ahead j.isLt) with
  | .ok g => pure (.ok (quotients g f (ahead - x[j])))
  | .error mishap => do
    let behind := x[j] + -move
    match ← evaluate P (x.set j behind j.isLt) with
    | .ok g => pure (.ok (quotients g f (behind - x[j])))
    | .error _ => pure (.error mishap)

/-- One side of a two-sided quotient, with unknown `j` moved to `target`, `width` away: how far the
side reaches, and the residual at its end. A side that is shut or undefined reaches nowhere. -/
def probeSide (P : Problem α σ n) (x f : Vector α n) (j : Fin n) (room target width : α) :
    Action α σ n (α × Vector α n) := do
  if room > 0 then
    match ← evaluate P (x.set j target j.isLt) with
    | .ok g => pure (if width > 0 then (width, g) else (width, f))
    | .error _ => pure (0, f)
  else pure (room, f)

/-- The two-sided column of unknown `j` at `x`, where the residual is `f`. -/
def twoSidedColumn (P : Problem α σ n) (scale x f : Vector α n) (j : Fin n) :
    Action α σ n (Except Mishap (Vector α n)) := do
  let s ← get
  let reach := abs (increment x[j] scale[j] P.options.differenceStep)
  let roomRight := larger (smaller (s.upper[j] - x[j]) reach) 0
  let roomLeft := larger (smaller (x[j] - s.lower[j]) reach) 0
  let targetRight := x[j] + roomRight
  let (widthRight, right) ← probeSide P x f j roomRight targetRight (targetRight - x[j])
  let targetLeft := x[j] - roomLeft
  let (widthLeft, left) ← probeSide P x f j roomLeft targetLeft (x[j] - targetLeft)
  let width := widthRight + widthLeft
  if width == 0 then pure (.error (.undefinedAround j))
  else pure (.ok (quotients right left width))

/-- Puts columns into a matrix one after another. `publish` gets the matrix after each column; the
first column that is not defined ends it. -/
def fillColumns (column : Fin n → Action α σ n (Except Mishap (Vector α n)))
    (publish : Mat α n n → Action α σ n Unit) :
    List (Fin n) → Mat α n n → Action α σ n (Except Mishap (Mat α n n))
  | [], A => pure (.ok A)
  | j :: rest, A => do
    match ← column j with
    | .error mishap => pure (.error mishap)
    | .ok c => do
      let B := A.setColumn j c
      publish B
      fillColumns column publish rest B

/-- The Jacobian at `x`, where the residual is `f`, column by column into the matrix `A`. -/
def differences (P : Problem α σ n) (scale : Vector α n) (twoSided : Fin n → Bool)
    (x f : Vector α n) (publish : Mat α n n → Action α σ n Unit) (A : Mat α n n) :
    Action α σ n (Except Mishap (Mat α n n)) :=
  fillColumns
    (fun j => if twoSided j then twoSidedColumn P scale x f j else oneSidedColumn P scale x f j)
    publish (List.finRange n) A

/-- The point with every unknown of a group moved. -/
def groupPoint (P : Problem α σ n) (s : Session α σ n) (scale x : Vector α n)
    (group : List (Fin n)) : Vector α n :=
  group.foldl
    (fun (y : Vector α n) (j : Fin n) =>
      y.set j
        (x[j] + inwardIncrement x[j] scale[j] P.options.differenceStep s.lower[j] s.upper[j])
        j.isLt) x

/-- The column of an unknown that was moved together with others: zero outside its own rows. -/
def groupColumn (pattern : Pattern n n) (x f y g : Vector α n) (j : Fin n) : Vector α n :=
  Vector.ofFn fun i =>
    if pattern.rows[j].contains i then (g[i] - f[i]) / (y[j] - x[j]) else 0

/-- The Jacobian at `x`, where the residual is `f`, group by group into the matrix `A`. -/
def compressedDifferences (P : Problem α σ n) (scale : Vector α n) (pattern : Pattern n n)
    (x f : Vector α n) (publish : Mat α n n → Action α σ n Unit) :
    List (List (Fin n)) → Mat α n n → Action α σ n (Except Mishap (Mat α n n))
  | [], A => pure (.ok A)
  | group :: rest, A => do
    let y := groupPoint P (← get) scale x group
    match ← evaluate P y with
    | .error mishap => pure (.error mishap)
    | .ok g => do
      let B := group.foldl (fun A j => A.setColumn j (groupColumn pattern x f y g j)) A
      publish B
      compressedDifferences P scale pattern x f publish rest B

end

end AlgebraicLoop
