import AlgebraicLoop.Model
import AlgebraicLoop.Scalar.Binary64

/-!
# Residuals written as formulas

A formula is an arithmetic expression in the unknowns and in parameters. Its value is computed with
binary64 numbers, operands from left to right; a formula can also say that it is not defined.

* `Formula.eval`: the value at a point, or the first failure met;
* `Formula.evalAll`, `Formula.evalRows`: the values of several formulas, in order.
-/

namespace AlgebraicLoop
set_option autoImplicit false

/-- Operations on one number. -/
inductive UnaryOp where
  | neg
  | abs
  | sqrt
  | exp
  | log
  | sin
  | cos
  deriving Repr, DecidableEq

/-- Operations on two numbers. -/
inductive BinaryOp where
  | add
  | sub
  | mul
  | div
  deriving Repr, DecidableEq

/-- An expression in unknowns and parameters. -/
inductive Formula where
  | number (value : Float)
  | unknown (index : Nat)
  | parameter (index : Nat)
  /-- Not defined. -/
  | failure (failure : EvalFailure)
  | unary (op : UnaryOp) (a : Formula)
  | binary (op : BinaryOp) (a b : Formula)
  /-- The third formula where the first is less than the second, else the fourth. -/
  | ifLess (a b c d : Formula)
  deriving Repr

/-- The value of an operation on one number. -/
def UnaryOp.apply : UnaryOp → Float → Float
  | .neg, x => -x
  | .abs, x => x.abs
  | .sqrt, x => x.sqrt
  | .exp, x => x.exp
  | .log, x => x.log
  | .sin, x => x.sin
  | .cos, x => x.cos

/-- The value of an operation on two numbers. -/
def BinaryOp.apply : BinaryOp → Float → Float → Float
  | .add, x, y => x + y
  | .sub, x, y => x - y
  | .mul, x, y => x * y
  | .div, x, y => x / y

namespace Formula

/-- The entry at an index; there is no number beyond the end. -/
def entry (xs : Array Float) (i : Nat) : Float := xs.getD i (0.0 / 0.0)

/-- The value for given unknowns and parameters, or the first failure met. -/
def eval (x p : Array Float) : Formula → Except EvalFailure Float
  | number value => .ok value
  | unknown i => .ok (entry x i)
  | parameter i => .ok (entry p i)
  | failure f => .error f
  | unary op a => do
    let u ← eval x p a
    .ok (op.apply u)
  | binary op a b => do
    let u ← eval x p a
    let v ← eval x p b
    .ok (op.apply u v)
  | ifLess a b c d => do
    let u ← eval x p a
    let v ← eval x p b
    if u < v then eval x p c else eval x p d

/-- The values of several formulas, in order, or the first failure met. -/
def evalAll {n : Nat} (x p : Array Float) (fs : Vector Formula n) :
    Except EvalFailure (Vector Float n) :=
  fs.mapM (eval x p)

/-- The values of a matrix of formulas, row by row, or the first failure met. -/
def evalRows {m n : Nat} (x p : Array Float) (fs : Mat Formula m n) :
    Except EvalFailure (Mat Float m n) :=
  fs.mapM (evalAll x p)

end Formula

end AlgebraicLoop
