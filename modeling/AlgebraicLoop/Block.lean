import AlgebraicLoop.PlainMethods

/-!
# Blocks

A block is a problem with its session. Every operation returns what it came to and the block after
it, also when it failed.

* `Block.create`: a block, if there is an unknown to solve for;
* `Block.solve`, `Block.setPoint`: solving, and giving a point to start from;
* `Block.checkpoint`, `Block.restore`, `Block.completedOuterStep`: going back to an earlier point;
* `Block.evaluateJacobian`, `Block.factorizeJacobian`: the Jacobian at the current point;
* `Block.notifyEvent`, `Block.teardown`: forgetting what an event or a new start makes worthless.
-/

namespace AlgebraicLoop
set_option autoImplicit false

/-- A problem with its session. -/
structure Block (α σ : Type) (n : Nat) where
  problem : Problem α σ n
  session : Session α σ n

section
variable {α σ : Type} [Scalar α] {n : Nat}

/-- What follows an action, however it ended. -/
def thenAlways {β : Type} (action : Action α σ n β) (change : Session α σ n → Session α σ n) :
    Action α σ n β := fun s =>
  match action s with
  | .ok value s => .ok value (change s)
  | .error halt s => .error halt (change s)

/-- A solve by the method that the options name. -/
def solveByMethod (P : Problem α σ n) : Action α σ n (Report α) :=
  match P.options.method with
  | .damped => solveDamped P
  | .undamped => solveUndamped P
  | .direct => solveDirect P

/-- A solve from the current point. -/
def solveAction (P : Problem α σ n) : Action α σ n (Report α) := do
  modify fun s => { s with counters.solves := s.counters.solves + 1 }
  prepareUnknowns P
  projectPoint P
  let s ← get
  if s.atEvent ∧ P.auxiliaryCount > 0 then updateAuxiliary P s.x
  thenAlways (solveByMethod P) fun s => { s with atEvent := false, guessGiven := false }

/-- Takes a new point. -/
def setPointAction (P : Problem α σ n) (x : Array α) : Action α σ n Unit := do
  let x ← checkLength x
  prepareUnknowns P
  modify fun s => { s with x }
  projectPoint P
  modify fun s => { s with guessGiven := true }

/-- Evaluates residual and Jacobian at the current point. -/
def freshJacobian (P : Problem α σ n) : Action α σ n Unit := do
  prepareUnknowns P
  discard (setUp P)
  let x := (← get).x
  match ← evaluate P x with
  | .error mishap => fail (.jacobian mishap)
  | .ok f => do
    modifyWork fun w => { w with flags.forceNewJacobian := true }
    match ← evaluateJacobian P x f with
    | .error mishap => fail (.jacobian mishap)
    | .ok () => pure ()

/-- The Jacobian at the current point. -/
def jacobianAction (P : Problem α σ n) : Action α σ n (Mat α n n) := do
  freshJacobian P
  pure (← get).work.jacobian

/-- The factorization of the Jacobian at the current point, or of what stands in for it. -/
def factorizeAction (P : Problem α σ n) : Action α σ n (Factorization α n) := do
  freshJacobian P
  if ← factorize then pure (← get).work.factorization
  else fail .notFactored

/-- Goes back to a checkpoint of the same number of unknowns. -/
def restoreAction {m : Nat} (checkpoint : Checkpoint α m) : Action α σ n Unit :=
  if h : m = n then
    modify fun s =>
      let checkpoint : Checkpoint α n := h ▸ checkpoint
      { s with x := checkpoint.x, work := s.work.rewind checkpoint }
  else fail (.dimensionMismatch n m)

namespace Block

/-- A block with the given label. It needs at least one unknown. -/
def create (label : String) (model : Model α σ n) (state : σ) (options : Options α)
    (auxiliaryCount : Nat) (variability : Variability) : Except (Fault α) (Block α σ n) :=
  if n = 0 then .error (.emptyBlock label)
  else
    .ok
      { problem := { label, options, model, auxiliaryCount, variability }
        session := Session.fresh n state }

/-- Runs an action on the session of the block. -/
def perform {β : Type} (b : Block α σ n) (action : Problem α σ n → Action α σ n β) :
    Except (Halt α) β × Block α σ n :=
  match action b.problem b.session with
  | .ok value session => (.ok value, { b with session })
  | .error halt session => (.error halt, { b with session })

/-- Solves for a zero of the residual, from the current point. -/
def solve (b : Block α σ n) : Except (Halt α) (Report α) × Block α σ n := b.perform solveAction

/-- Replaces the current point, moved into the bounds when these are enforced. -/
def setPoint (b : Block α σ n) (x : Array α) : Except (Halt α) Unit × Block α σ n :=
  b.perform (setPointAction · x)

/-- A checkpoint at the current point. -/
def checkpoint (b : Block α σ n) : Checkpoint α n := b.session.work.save b.session.x

/-- Goes back to a checkpoint. -/
def restore {m : Nat} (b : Block α σ n) (checkpoint : Checkpoint α m) :
    Except (Halt α) Unit × Block α σ n :=
  b.perform fun _ => restoreAction checkpoint

/-- Remembers the current point as accepted. -/
def completedOuterStep (b : Block α σ n) : Block α σ n :=
  { b with
    session :=
      { b.session with work := { b.session.work with accepted := some b.checkpoint } } }

/-- Takes note of an event of the model. -/
def notifyEvent (b : Block α σ n) : Block α σ n :=
  { b with session := { b.session with atEvent := true, eventSinceJacobian := true } }

/-- The Jacobian at the current point. -/
def evaluateJacobian (b : Block α σ n) : Except (Halt α) (Mat α n n) × Block α σ n :=
  b.perform jacobianAction

/-- The factorization of the Jacobian at the current point. -/
def factorizeJacobian (b : Block α σ n) : Except (Halt α) (Factorization α n) × Block α σ n :=
  b.perform factorizeAction

/-- Changes the model's own state. -/
def modifyModel (b : Block α σ n) (change : σ → σ) : Block α σ n :=
  { b with session := { b.session with model := change b.session.model } }

/-- Forgets everything that was derived for earlier solves, apart from the point. -/
def teardown (b : Block α σ n) : Block α σ n :=
  { b with session := { b.session with work := Workspace.fresh n } }

end Block

end

end AlgebraicLoop
