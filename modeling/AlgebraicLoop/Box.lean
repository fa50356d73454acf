import AlgebraicLoop.Linear.Basic

/-!
# Steps inside a box

A box keeps the finite bounds of the unknowns. `Box.limitStep` shortens a step so that it does not
leave the box. A bound in the way either limits the step, which is then shortened as a whole, or,
when it admits too small a part of it, is active: its unknown is pinned to the bound and the rest of
the step keeps its length. After that no component may be longer than a multiple of the size of its
unknown.

* `Box.ofBounds`: the box of given bounds;
* `Box.limitStep`: the shortened step, with what each bound did to it;
* `Box.clamp`: the nearest point of the box.
-/

namespace AlgebraicLoop
set_option autoImplicit false

/-- The two sides an unknown can be bounded from. -/
inductive Side where
  | lower
  | upper
  deriving Repr, DecidableEq

/-- What a bound did to the last step. -/
inductive BoundEffect where
  /-- The step does not reach the bound. -/
  | inactive
  /-- The bound shortened the whole step. -/
  | limiting
  /-- The unknown was pinned to the bound. -/
  | active
  deriving Repr, DecidableEq

/-- A finite bound of one of `n` unknowns. -/
structure Bound (α : Type) (n : Nat) where
  unknown : Fin n
  side : Side
  value : α
  effect : BoundEffect := .inactive
  deriving Repr

/-- The finite bounds of `n` unknowns, and the longest step of each that its interval admits. -/
structure Box (α : Type) (n : Nat) where
  bounds : List (Bound α n)
  rangeLimits : Vector α n
  deriving Repr

/-- What became of a step. -/
structure StepLimit (α : Type) (n : Nat) where
  step : Vector α n
  /-- The factor of all components that were not pinned. -/
  ratio : α
  /-- How many unknowns were pinned. -/
  active : Nat
  /-- The unknown whose bound shortened the step. -/
  limiting : Option (Fin n)
  /-- The unknown whose size shortened the step. -/
  rangeLimited : Option (Fin n)
  deriving Repr

section
variable {α : Type} [Scalar α] {n : Nat}

namespace Bound

/-- The move from `x` to the bound, kept a little short. -/
def distance (b : Bound α n) (x : α) : α := (b.value - x) * (1 - roundoff)

/-- Does a move by `step` pass the bound, which is `distance` away? -/
def crossedBy (b : Bound α n) (distance step : α) : Bool :=
  match b.side with
  | .upper => step > distance
  | .lower => step < distance

/-- Is the point already on the wrong side of the bound, which is `distance` away? -/
def violatedBy (b : Bound α n) (distance : α) : Bool :=
  match b.side with
  | .upper => distance < 0
  | .lower => distance > 0

end Bound

/-- A step while it is being limited. -/
structure Limiter (α : Type) (n : Nat) where
  step : Vector α n
  /-- The moves of the pinned unknowns. -/
  pins : Vector (Option α) n
  ratio : α
  /-- The place, in the list of bounds, of the bound that shortened the step. -/
  limiting : Option Nat
  rangeLimited : Option (Fin n)

namespace Limiter

/-- Nothing pinned, full length. -/
def start (step : Vector α n) : Limiter α n := ⟨step, Vector.replicate n none, 1, none, none⟩

/-- Pins an unknown to the given move. -/
def pin (l : Limiter α n) (i : Fin n) (move : α) : Limiter α n :=
  { l with pins := l.pins.set i (some move) i.isLt, step := l.step.set i 0 i.isLt }

/-- Lets the bound at place `k` of the list act on a step from `x`. -/
def meet (x : Vector α n) (minRatio : α) (l : Limiter α n) (k : Nat) (b : Bound α n) :
    Bound α n × Limiter α n :=
  let i := b.unknown
  let move := l.step[i]
  let distance := b.distance x[i]
  if b.violatedBy distance then
    ({ b with effect := .active }, l.pin i (b.value - x[i]))
  else if move == 0 ∨ !b.crossedBy distance move then
    ({ b with effect := .inactive }, l)
  else
    let part := distance / move
    if part < minRatio then
      ({ b with effect := .active }, l.pin i distance)
    else if part < l.ratio then
      ({ b with effect := .inactive }, { l with ratio := part, limiting := some k })
    else
      ({ b with effect := .inactive }, l)

/-- Lets all bounds act, in order; `k` is the place of the first one in the whole list. -/
def meetAll (x : Vector α n) (minRatio : α) :
    Nat → List (Bound α n) → Limiter α n → List (Bound α n) × Limiter α n
  | _, [], l => ([], l)
  | k, b :: rest, l =>
    let (b, l) := l.meet x minRatio k b
    let (rest, l) := meetAll x minRatio (k + 1) rest l
    (b :: rest, l)

/-- How far unknown `i` is to move; `none` when it is not to move at all. -/
def lengthAt? (l : Limiter α n) (i : Fin n) : Option α :=
  let length := abs l.step[i]
  if length > 0 then some length
  else
    match l.pins[i] with
    | some move => if move == 0 then none else some (abs move)
    | none => none

/-- Keeps the move of unknown `i` below `factor` times its size and below its range limit. -/
def cap (rangeLimits x nominal : Vector α n) (factor : α) (l : Limiter α n) (i : Fin n) :
    Limiter α n :=
  match l.lengthAt? i with
  | none => l
  | some length =>
    let size := larger (abs nominal[i]) (abs x[i])
    let sizeLimit := if size > 0 then size * factor else infinity
    let limit := smaller rangeLimits[i] sizeLimit
    if length < limit then l
    else
      match l.pins[i] with
      | some move => { l with pins := l.pins.set i (some (copySign limit move)) i.isLt }
      | none =>
        let part := limit / length
        if part < l.ratio then
          { l with ratio := part, rangeLimited := some i, limiting := none }
        else l

/-- The limited step: pinned moves as they are, all others shortened. -/
def finalStep (l : Limiter α n) : Vector α n :=
  l.step.zipWith (fun move pin => pin.getD (move * l.ratio)) l.pins

end Limiter

namespace Box

/-- No bounds at all. -/
def unbounded (n : Nat) : Box α n := ⟨[], Vector.replicate n infinity⟩

/-- The finite bounds of unknown `i`, the upper one first. -/
def boundsOf (lower upper : α) (i : Fin n) : List (Bound α n) :=
  (if isFinite upper then [{ unknown := i, side := .upper, value := upper }] else []) ++
    (if isFinite lower then [{ unknown := i, side := .lower, value := lower }] else [])

/-- The longest step for an interval that does not contain zero: its width times the factor. -/
def rangeLimit (lower upper : α) (factor : Option α) : α :=
  let width := upper - lower
  match factor with
  | some factor =>
    if isFinite lower ∧ isFinite upper ∧ width > 0 ∧ lower * upper > 0 then width * factor
    else infinity
  | none => infinity

/-- The box of the given bounds. -/
def ofBounds (lower upper : Vector α n) (factor : Option α) : Box α n where
  bounds := (List.finRange n).flatMap fun i => boundsOf lower[i] upper[i] i
  rangeLimits := lower.zipWith (fun low high => rangeLimit low high factor) upper

/-- Limits a step from `x`. A bound that admits less than `minRatio` of the step is active; no move
is longer than `factor` times the size of its unknown. -/
def limitStep (box : Box α n) (x nominal step : Vector α n) (minRatio : α) (factor : Option α) :
    Box α n × StepLimit α n :=
  let (bounds, met) := (Limiter.start step).meetAll x minRatio 0 box.bounds
  let capped := match factor with
    | some factor => (List.finRange n).foldl (Limiter.cap box.rangeLimits x nominal factor) met
    | none => met
  let limiting := capped.limiting.bind fun k => bounds[k]?.map Bound.unknown
  let bounds := match capped.limiting with
    | some k => bounds.modify k fun b => { b with effect := .limiting }
    | none => bounds
  ({ box with bounds },
    { step := capped.finalStep
      ratio := capped.ratio
      active := capped.pins.countP Option.isSome
      limiting
      rangeLimited := capped.rangeLimited })

/-- The nearest point of the box. -/
def clamp (box : Box α n) (x : Vector α n) : Vector α n :=
  box.bounds.foldl
    (fun x b =>
      let outside := match b.side with
        | .upper => decide (x[b.unknown] > b.value)
        | .lower => decide (x[b.unknown] < b.value)
      if outside then x.set b.unknown b.value b.unknown.isLt else x) x

/-- Is a bound of unknown `i` at most `reach` away from `x`? -/
def isNearBound (box : Box α n) (i : Fin n) (x reach : α) : Bool :=
  box.bounds.any fun b => b.unknown = i ∧ abs (b.value - x) ≤ reach

end Box

end

end AlgebraicLoop
