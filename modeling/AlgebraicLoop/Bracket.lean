import AlgebraicLoop.Scalar

/-!
# Bracketing a root of one unknown

A bracket keeps, of all points that were evaluated, the two whose values are nearest to zero from
either side. Between two such points the root is searched by inverse quadratic interpolation, the
secant and bisection, whichever is safe.

* `Bracket.record`, `Bracket.interval?`: collecting points, and the two ends once both are known;
* `findRoot`: the search between two points of opposite sign.
-/

namespace AlgebraicLoop
set_option autoImplicit false

/-- A point with its function value. -/
structure Sample (α : Type) where
  x : α
  f : α
  deriving Repr

/-- The points nearest to a root on either side. -/
structure Bracket (α : Type) where
  /-- The first point with the greatest value that is not positive. -/
  below : Option (Sample α) := none
  /-- The first point with the least positive value. -/
  above : Option (Sample α) := none
  deriving Repr

/-- What a search came to. -/
structure RootFound (α : Type) where
  point : Sample α
  iterations : Nat
  converged : Bool
  deriving Repr

/-- A search: the best point so far, the one before it, a point of opposite sign, and the last two
moves. -/
structure RootSearch (α : Type) where
  best : Sample α
  previous : Sample α
  opposite : Sample α
  move : α
  lastMove : α
  deriving Repr

section
variable {α : Type} [Scalar α]

namespace Bracket

/-- Takes note of a point; one that is not finite is left out. -/
def record (b : Bracket α) (p : Sample α) : Bracket α :=
  if !(isFinite p.x && isFinite p.f) then b
  else if p.f ≤ 0 then
    if b.below.all fun q => p.f > q.f then { b with below := some p } else b
  else
    if b.above.all fun q => p.f < q.f then { b with above := some p } else b

/-- Both ends, once a change of sign has been seen. -/
def interval? (b : Bracket α) : Option (Sample α × Sample α) :=
  match b.below, b.above with
  | some low, some high => some (low, high)
  | _, _ => none

end Bracket

namespace RootSearch

/-- The search from `a` to `b`. -/
def start (a b : Sample α) : RootSearch α :=
  { best := b, previous := a, opposite := b, move := b.x - a.x, lastMove := b.x - a.x }

/-- Do the best and the opposite point lie on the same side of zero? -/
def sameSide (s : RootSearch α) : Bool :=
  (s.best.f > 0 ∧ s.opposite.f > 0) ∨ (s.best.f < 0 ∧ s.opposite.f < 0)

/-- Brings the points into order: the opposite point has the other sign, and the best point has the
lesser value of the two. -/
def arrange (s : RootSearch α) : RootSearch α :=
  let s :=
    if s.sameSide then
      { s with
        opposite := s.previous
        move := s.best.x - s.previous.x
        lastMove := s.best.x - s.previous.x }
    else s
  if abs s.opposite.f < abs s.best.f then
    { s with previous := s.best, best := s.opposite, opposite := s.best }
  else s

/-- How near to the best point a root need not be told apart from it. -/
def resolution (s : RootSearch α) (xtol : α) : α := 2 * roundoff * abs s.best.x + 0.5 * xtol

/-- The move from the best point to the middle of the bracket. -/
def halfWidth (s : RootSearch α) : α := 0.5 * (s.opposite.x - s.best.x)

/-- Is the bracket narrow enough, or a zero hit? -/
def finished (s : RootSearch α) (xtol : α) : Bool :=
  abs s.halfWidth ≤ s.resolution xtol ∨ s.best.f == 0

/-- Numerator and denominator of the interpolated move, the numerator not negative. -/
def interpolate (s : RootSearch α) : α × α :=
  let slope := s.best.f / s.previous.f
  let (p, q) :=
    if s.previous.x == s.opposite.x then
      (2 * s.halfWidth * slope, 1 - slope)
    else
      let t := s.previous.f / s.opposite.f
      let r := s.best.f / s.opposite.f
      (slope * (2 * s.halfWidth * t * (t - r) - (s.best.x - s.previous.x) * (r - 1)),
        (t - 1) * (r - 1) * (slope - 1))
  (abs p, if p > 0 then -q else q)

/-- The next two moves: interpolation where it stays well inside the bracket and the moves keep
shrinking, bisection elsewhere. -/
def chooseMove (s : RootSearch α) (xtol : α) : α × α :=
  let tol := s.resolution xtol
  let half := s.halfWidth
  if abs s.lastMove ≥ tol ∧ abs s.previous.f > abs s.best.f then
    let (p, q) := s.interpolate
    if 2 * p < smaller (3 * half * q - abs (tol * q)) (abs (s.lastMove * q)) then
      (p / q, s.move)
    else (half, half)
  else (half, half)

/-- The point to evaluate next; no move is shorter than the resolution. -/
def probe (s : RootSearch α) (xtol : α) : α :=
  let tol := s.resolution xtol
  let move := (s.chooseMove xtol).1
  s.best.x + (if abs move > tol then move else copySign tol s.halfWidth)

/-- The search after the value at `probe` came out as `f`. -/
def advance (s : RootSearch α) (xtol f : α) : RootSearch α :=
  let (move, lastMove) := s.chooseMove xtol
  { s with best := ⟨s.probe xtol, f⟩, previous := s.best, move, lastMove }

/-- At most `budget` more evaluations of `f`, after `done` of them. -/
def run {m : Type → Type} [Monad m] (f : α → m α) (xtol : α) :
    (budget done : Nat) → RootSearch α → m (RootFound α)
  | 0, done, s => pure ⟨s.best, done, false⟩
  | budget + 1, done, s =>
    let s := s.arrange
    if s.finished xtol then pure ⟨s.best, done, true⟩
    else do
      let value ← f (s.probe xtol)
      run f xtol budget (done + 1) (s.advance xtol value)

end RootSearch

/-- The most evaluations of one search. -/
def rootBudget : Nat := 100

/-- The root of `f` between two points of opposite sign, to within `xtol` and the roundoff. -/
def findRoot {m : Type → Type} [Monad m] (f : α → m α) (a b : Sample α) (xtol : α) :
    m (RootFound α) :=
  if a.f == 0 then pure ⟨a, 0, true⟩
  else RootSearch.run f xtol rootBudget 0 (RootSearch.start a b)

end

end AlgebraicLoop
