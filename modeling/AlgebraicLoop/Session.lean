import AlgebraicLoop.Bracket
import AlgebraicLoop.Model
import AlgebraicLoop.Nominal
import AlgebraicLoop.Notice
import AlgebraicLoop.Options
import AlgebraicLoop.Scaling
import AlgebraicLoop.Workspace

/-!
# Working on a block

A `Problem` says what is to be solved and how; a `Session` holds all that changes while it is worked
on: the unknowns, the workspace, the model's own state, and a record of every notice given and of
every request made to the model. An `Action` is a computation on a session. It may end early with a
`Halt`, and the session it had reached then is kept.

* `evaluate`: the residual at a point; a point where it is undefined or not finite is a mishap, a
  fatal answer ends the action;
* `prepareUnknowns`: start values, taken from the model once;
* `setUp`: bounds, scales and pattern, derived from the start values once.
-/

namespace AlgebraicLoop
set_option autoImplicit false

/-- How often the Jacobian of a block can change. -/
inductive Variability where
  | constant
  | parameter
  /-- Only at events. -/
  | discrete
  | continuous
  deriving Repr, DecidableEq

/-- Can the Jacobian of an earlier solve be used, given whether an event came after it? -/
def Variability.reusable : Variability → (eventSince : Bool) → Bool
  | .constant, _ | .parameter, _ => true
  | .discrete, eventSince => !eventSince
  | .continuous, _ => false

/-- Can the Jacobian change between the iterations of one solve? -/
def Variability.variesWithinSolve : Variability → Bool
  | .constant | .parameter => false
  | .discrete | .continuous => true

/-- Where a block is in its life. -/
inductive Phase where
  /-- Start values are not known yet. -/
  | untouched
  /-- Start values are known; nothing has been solved. -/
  | started
  | iterating
  | regularizing
  | minimumNorm
  | steepestDescent
  /-- The last solve met its exit criterion. -/
  | converged
  /-- The last solve failed. -/
  | failed
  deriving Repr, DecidableEq

/-- The work done on a block. -/
structure Counters where
  solves : Nat := 0
  iterations : Nat := 0
  residualEvaluations : Nat := 0
  jacobianEvaluations : Nat := 0
  deriving Repr, DecidableEq

/-- A loop and how it is to be solved. -/
structure Problem (α σ : Type) (n : Nat) where
  label : String
  options : Options α
  model : Model α σ n
  /-- How many outputs of the model depend on the unknowns without being solved for. -/
  auxiliaryCount : Nat
  variability : Variability

/-- All that changes while a block is worked on. -/
structure Session (α σ : Type) (n : Nat) where
  /-- The current point. -/
  x : Vector α n
  lower : Vector α n
  upper : Vector α n
  nominal : Vector α n
  initial : Vector α n
  phase : Phase
  counters : Counters
  /-- An event came after the last solve. -/
  atEvent : Bool
  /-- An event came after the last fresh Jacobian. -/
  eventSinceJacobian : Bool
  /-- The point was given after the last solve. -/
  guessGiven : Bool
  bracket : Bracket α
  work : Workspace α n
  /-- The model's own state. -/
  model : σ
  /-- All notices, oldest first. -/
  notices : Array (Notice α)
  /-- All requests to the model, oldest first. -/
  calls : Array (Call α n)

/-- A computation on a session. -/
abbrev Action (α σ : Type) (n : Nat) (β : Type) : Type :=
  EStateM (Halt α) (Session α σ n) β

section
variable {α σ : Type} [Scalar α] {n : Nat}

/-- The session of a block that nothing has been asked of yet. -/
def Session.fresh (n : Nat) (model : σ) : Session α σ n where
  x := Vector.replicate n 0
  lower := Vector.replicate n (-infinity)
  upper := Vector.replicate n infinity
  nominal := Vector.replicate n 1
  initial := Vector.replicate n 0
  phase := .untouched
  counters := {}
  atEvent := false
  eventSinceJacobian := false
  guessGiven := false
  bracket := {}
  work := Workspace.fresh n
  model
  notices := #[]
  calls := #[]

/-- Ends the action with a fault. -/
def fail {β : Type} (fault : Fault α) : Action α σ n β := throw (.fault fault)

/-- Gives a notice. -/
def notify (notice : Notice α) : Action α σ n Unit :=
  modify fun s => { s with notices := s.notices.push notice }

/-- Changes the workspace. -/
def modifyWork (change : Workspace α n → Workspace α n) : Action α σ n Unit :=
  modify fun s => { s with work := change s.work }

/-- Makes a request to the model and records it with its answer. -/
def ask {β : Type} (request : σ → β × σ) (record : β → Call α n) : Action α σ n β :=
  modifyGet fun s =>
    let (answer, model) := request s.model
    (answer, { s with model, calls := s.calls.push (record answer) })

/-- The two ends of a request that is not fatal: an answer or a mishap. A fatal failure ends the
action. -/
def settleAnswer {β : Type} (request : Request) :
    Except EvalFailure β → Action α σ n (Except Mishap β)
  | .ok value => pure (.ok value)
  | .error (.recoverable reason) => pure (.error (.model reason))
  | .error (.fatal reason) => fail (.modelFatal request reason)

/-- The single unknown and its residual as a sample; `none` for more than one unknown. -/
def sampleOf? (x f : Vector α n) : Option (Sample α) :=
  if h : n = 1 then some ⟨x[0], f[0]⟩ else none

/-- Takes note of an evaluated point when the root is to be bracketed. -/
def recordSample (P : Problem α σ n) (x f : Vector α n) : Action α σ n Unit :=
  if P.options.refineBracket then
    match sampleOf? x f with
    | some sample => modify fun s => { s with bracket := s.bracket.record sample }
    | none => pure ()
  else pure ()

/-- The residual at `x`. -/
def evaluate (P : Problem α σ n) (x : Vector α n) :
    Action α σ n (Except Mishap (Vector α n)) := do
  modify fun s =>
    { s with counters.residualEvaluations := s.counters.residualEvaluations + 1 }
  let answer ← ask (P.model.evaluate x) (.evaluate x)
  match ← settleAnswer .evaluate answer with
  | .error mishap => pure (.error mishap)
  | .ok f =>
    match f.findFinIdx? fun y => !isFinite y with
    | some i => do
      notify (.illegalResidual i f[i])
      pure (.error (.illegalResidual i))
    | none => do
      recordSample P x f
      pure (.ok f)

/-- Brings the outputs up to date that depend on `x`. Only a fatal failure ends the action. -/
def updateAuxiliary (P : Problem α σ n) (x : Vector α n) : Action α σ n Unit := do
  match ← ask (P.model.evaluateAuxiliary x) (.evaluateAuxiliary x) with
  | .ok () => pure ()
  | .error (.recoverable reason) => notify (.auxiliaryNotUpdated reason)
  | .error (.fatal reason) => fail (.modelFatal .evaluateAuxiliary reason)

/-- Hands the current point over to the model. Any failure ends the action. -/
def writeBack (P : Problem α σ n) : Action α σ n Unit := do
  let s ← get
  match ← ask (P.model.writeBack s.x) (.writeBack s.x) with
  | .ok () => pure ()
  | .error (.recoverable reason) | .error (.fatal reason) =>
    fail (.modelFatal .writeBack reason)

/-- The point moved into the bounds; an unknown that is inside stays as it is. -/
def project (lower upper x : Vector α n) : Vector α n :=
  Vector.ofFn fun i =>
    let inside := smaller (larger x[i] lower[i]) upper[i]
    if inside == x[i] then x[i] else inside

/-- Moves the current point into the bounds when these are enforced. -/
def projectPoint (P : Problem α σ n) : Action α σ n Unit :=
  if P.options.enforceBounds then
    modify fun s => { s with x := project s.lower s.upper s.x }
  else pure ()

/-- A vector of the right length. -/
def checkLength (v : Array α) : Action α σ n (Vector α n) :=
  if h : v.size = n then pure ⟨v, h⟩ else fail (.dimensionMismatch n v.size)

/-- Refuses bounds in the wrong order, and gives notice of equal ones. -/
def checkBounds (lower upper : Vector α n) (i : Fin n) : Action α σ n Unit :=
  if lower[i] > upper[i] then fail (.inconsistentBounds i lower[i] upper[i])
  else if lower[i] == upper[i] then notify (.equalBounds i lower[i])
  else pure ()

/-- Takes the start values from the model, the first time it succeeds. -/
def prepareUnknowns (P : Problem α σ n) : Action α σ n Unit := do
  if (← get).phase = .untouched then
    match ← ask (P.model.start (StartValues.default n)) .start with
    | .error (.fatal reason) => fail (.modelFatal .start reason)
    | .error (.recoverable reason) => fail (.initialEvaluation (.model reason))
    | .ok values => do
      let nominal ← checkLength values.nominal
      let lower ← checkLength values.lower
      let upper ← checkLength values.upper
      let initial ← checkLength values.initial
      (List.finRange n).forM (checkBounds lower upper)
      modify fun s =>
        { s with
          x := initial
          nominal :=
            Vector.ofFn fun i => repairNominal nominal[i] lower[i] upper[i] initial[i]
          lower, upper, initial
          phase := .started }
      projectPoint P
  else pure ()

/-- The pattern to difference columns in groups by, when that is asked for and the model knows one
of the right shape. -/
def usablePattern? (P : Problem α σ n) (model : σ) : Option (Pattern n n) :=
  if P.options.jacobianSource = .compressed then
    (P.model.pattern model).bind fun p => p.square? n
  else none

/-- Derives bounds, scales of the unknowns and the pattern, once. Tells whether this was the first
time. -/
def setUp (P : Problem α σ n) : Action α σ n Bool := do
  let s ← get
  if s.work.ready then pure false
  else do
    modifyWork fun w =>
      { w with
        box := Box.ofBounds s.lower s.upper P.options.stepLimitFactor
        variableScale := variableScales P.options.variableScaling s.nominal P.options.tolerance
        pattern := usablePattern? P s.model
        ready := true }
    pure true

end

end AlgebraicLoop
