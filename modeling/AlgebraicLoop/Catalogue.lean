import AlgebraicLoop.Model
import AlgebraicLoop.Scalar.Elementary

/-!
# The catalogue

Small loops that show what the solver can do, each with a name and a description.

* `Loop`, `Loop.model`: a loop given by a formula, and the model made from it;
* `catalogue`, `Loop.find?`: all loops, and the loop of a given name.
-/

namespace AlgebraicLoop
set_option autoImplicit false

/-- A loop whose residual is a function of the unknowns. -/
structure Loop where
  name : String
  description : String
  size : Nat
  initial : Vector Float size
  nominal : Option (Vector Float size) := none
  lower : Option (Vector Float size) := none
  upper : Option (Vector Float size) := none
  residual : Vector Float size → Except EvalFailure (Vector Float size)
  jacobian : Option (Vector Float size → Mat Float size size) := none
  /-- Each residual depends on its own unknown and on the two beside it. -/
  tridiagonal : Bool := false

/-- The cells of a tridiagonal matrix, by columns. -/
def tridiagonalCells (n : Nat) : List (Nat × Nat) :=
  (List.range n).flatMap fun j =>
    ((List.range n).filter fun i => j ≤ i + 1 ∧ i ≤ j + 1).map fun i => (i, j)

namespace Loop

/-- The model of a loop. It has no state. -/
def model (l : Loop) : Model Float Unit l.size :=
  { Model.ofFunction l.residual with
    start := fun values s =>
      (.ok
        { nominal := (l.nominal.map Vector.toArray).getD values.nominal
          lower := (l.lower.map Vector.toArray).getD values.lower
          upper := (l.upper.map Vector.toArray).getD values.upper
          initial := l.initial.toArray }, s)
    jacobian := l.jacobian.map fun J x s => .whole (.ok (J x), s)
    pattern := fun _ =>
      if l.tridiagonal then
        (Pattern.ofCells? l.size l.size (tridiagonalCells l.size)).map fun pattern =>
          { height := l.size, width := l.size, pattern }
      else none }

/-- One unknown far from its root. -/
def farSquare : Loop where
  name := "square"
  description := "x² = 4 from a far initial guess"
  size := 1
  initial := #v[10]
  residual x := .ok #v[x[0] * x[0] - 4]

/-- An affine loop with its Jacobian. -/
def sumAndDifference : Loop where
  name := "linear"
  description := "x0 + x1 = 3, x0 - x1 = 1 with the exact Jacobian"
  size := 2
  initial := #v[0, 0]
  residual x := .ok #v[x[0] + x[1] - 3, x[0] - x[1] - 1]
  jacobian := some fun _ => #v[#v[1, 1], #v[1, -1]]

/-- A root outside the bounds. -/
def cappedUnknown : Loop where
  name := "capped"
  description := "x = 10 with x ≤ 5: the bound stops the iteration"
  size := 1
  initial := #v[0]
  upper := some #v[5]
  residual x := .ok #v[x[0] - 10]

/-- A circle and a line. -/
def circleAndLine : Loop where
  name := "circle-line"
  description := "intersection of x0² + x1² = 4 and x0 = x1"
  size := 2
  initial := #v[1, 1.5]
  residual x := .ok #v[hypotenuse x[0] x[1] - 2, x[0] - x[1]]

/-- The current through a diode with the given voltage, in amperes. -/
def diodeCurrent (voltage : Float) : Float := 1e-12 * (exponential (voltage / 0.025) - 1)

/-- A diode behind a resistor of 1000 ohms, at five volts. -/
def diodeCircuit : Loop where
  name := "diode"
  description := "diode voltage in a resistor-diode loop (stiff exponential)"
  size := 1
  initial := #v[0]
  nominal := some #v[0.7]
  lower := some #v[-5]
  upper := some #v[5]
  residual x :=
    let current := diodeCurrent x[0]
    if current.isFinite then .ok #v[current - (5.0 - x[0]) / 1000.0]
    else .error (.recoverable "diode current overflow")

/-- The residual at point `i` of a discretized boundary value problem, zero outside. -/
def chainResidual {n : Nat} (x : Vector Float n) (i : Fin n) : Float :=
  let left := if i.val = 0 then 0 else x[i.val - 1]
  let right := x[i.val + 1]?.getD 0
  2 * x[i] - left - right + x[i] * x[i] * x[i] - 1

/-- Eight unknowns in a chain. -/
def reactionChain : Loop where
  name := "chain"
  description := "discretized -u'' + u³ = 1 on eight points (tridiagonal)"
  size := 8
  initial := Vector.replicate 8 0
  residual x := .ok (Vector.ofFn (chainResidual x))
  tridiagonal := true

/-- Two equations that say the same. -/
def repeatedEquation : Loop where
  name := "singular"
  description := "two equations in x0 + x1 only: singular Jacobian everywhere"
  size := 2
  initial := #v[3, 4]
  residual x := .ok #v[x[0] + x[1] - 2, 2.0 * (x[0] + x[1] - 2)]
  jacobian := some fun _ => #v[#v[1, 1], #v[2, 2]]

/-- The stationary point of a curved valley. -/
def curvedValley : Loop where
  name := "rosenbrock"
  description := "10(x1 - x0²) = 0, 1 - x0 = 0 from (-1.2, 1)"
  size := 2
  initial := #v[-1.2, 1]
  residual x := .ok #v[10.0 * (x[1] - x[0] * x[0]), 1.0 - x[0]]
  jacobian := some fun x => #v[#v[-20.0 * x[0], 10], #v[-1, 0]]

end Loop

open Loop in
/-- All loops, in the order in which they are listed. -/
def catalogue : List Loop :=
  [farSquare, sumAndDifference, cappedUnknown, circleAndLine, diodeCircuit, reactionChain,
    repeatedEquation, curvedValley]

/-- The loop of the given name. -/
def Loop.find? (name : String) : Option Loop := catalogue.find? fun l => l.name == name

end AlgebraicLoop
