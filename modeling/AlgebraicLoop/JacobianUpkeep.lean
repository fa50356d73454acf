import AlgebraicLoop.Differences
import AlgebraicLoop.Secant

/-!
# Keeping the Jacobian

Before each iteration the Jacobian is evaluated afresh, updated by a secant formula or kept as it
is, as the options and the variability of the block allow.

* `evaluateJacobian`: a fresh Jacobian at a point;
* `prepareJacobian`: a usable Jacobian for an iteration, and whether it is fresh.
-/

namespace AlgebraicLoop
set_option autoImplicit false

section
variable {α σ : Type} [Scalar α] {n : Nat}

/-- Is the column of unknown `j` differenced to both sides at `x`? -/
def isTwoSided (o : Options α) (w : Workspace α n) (x : Vector α n) (j : Fin n) : Bool :=
  let reach := abs (increment x[j] w.variableScale[j] o.differenceStep)
  let nearBound := w.box.isNearBound j x[j] reach
  match o.jacobianSource with
  | .oneSided | .analytic | .compressed => false
  | .twoSidedNearSolution => w.lastNorm ≤ sqrt o.tolerance
  | .twoSided columns onlyInRetry =>
    (!onlyInRetry || w.retrying) &&
      match columns with
      | .all => true
      | .nearBound => nearBound
      | .nearBoundOrZero => nearBound || decide (abs x[j] < reach)

/-- Stores a matrix as the Jacobian, without saying that it can be used. -/
def storeJacobian (A : Mat α n n) : Action α σ n Unit :=
  modifyWork fun w => { w with jacobian := A }

/-- The model's own Jacobian at `x`. The model is handed the stored matrix, and what it leaves there
stays, also where it fails. -/
def analyticJacobian (jacobian : Vector α n → σ → Writing α σ n) (x : Vector α n) :
    Action α σ n (Except Mishap (Mat α n n)) := do
  let A := (← get).work.jacobian
  let (answer, B) ← ask (fun model => (jacobian x model).run A) fun (answer, B) =>
    .jacobian x (answer.map fun () => B)
  storeJacobian B
  settleAnswer .differentiate (answer.map fun () => B)

/-- The Jacobian at `x` from derivatives along the unit vectors, column by column. -/
def directionalJacobian (derivative : Vector α n → Vector α n → Answer σ (Vector α n))
    (x : Vector α n) (A : Mat α n n) : Action α σ n (Except Mishap (Mat α n n)) :=
  fillColumns
    (fun j => do
      let direction := (Vector.replicate n 0).set j 1 j.isLt
      let answer ← ask (derivative x direction) (.directional x direction)
      settleAnswer .differentiate answer)
    storeJacobian (List.finRange n) A

/-- The Jacobian at `x` from differences by groups, or column by column if that fails. -/
def groupedJacobian (P : Problem α σ n) (pattern : Pattern n n) (x f : Vector α n) :
    Action α σ n (Except Mishap (Mat α n n)) := do
  let w := (← get).work
  match ← compressedDifferences P w.variableScale pattern x f storeJacobian pattern.groups
      w.jacobian with
  | .ok A => pure (.ok A)
  | .error mishap => do
    notify (.compressedFailed mishap)
    let w := (← get).work
    differences P w.variableScale (fun _ => false) x f storeJacobian w.jacobian

/-- The Jacobian at `x` as the model computes it: its own, when that is asked for, else column by
column into `A`. `none` when the model cannot. -/
def exactJacobian? (P : Problem α σ n) (x : Vector α n) (A : Mat α n n) :
    Option (Action α σ n (Except Mishap (Mat α n n))) :=
  if P.options.jacobianSource = .analytic then
    P.model.jacobian.map fun jacobian => analyticJacobian jacobian x
  else
    P.model.directional.map fun derivative => directionalJacobian derivative x A

/-- The Jacobian at `x`, where the residual is `f`: from the model, else by groups of columns, else
column by column. Also tells whether the model computed it. -/
def sourceJacobian (P : Problem α σ n) (x f : Vector α n) :
    Action α σ n (Except Mishap (Mat α n n) × Bool) := do
  let w := (← get).work
  match exactJacobian? P x w.jacobian with
  | some exact => do
    let status ← exact
    pure (status, true)
  | none =>
    match w.pattern with
    | some pattern => do
      let status ← groupedJacobian P pattern x f
      pure (status, false)
    | none => do
      let status ← differences P w.variableScale (isTwoSided P.options w x) x f storeJacobian
        w.jacobian
      pure (status, false)

/-- The last entry, in the order of the columns, that is not finite. -/
def lastIllegalEntry? (A : Mat α n n) : Option (Fin n × Fin n) :=
  ((List.finRange n).flatMap fun j => (List.finRange n).map fun i => (i, j)).foldl
    (fun found (i, j) => if isFinite A[i][j] then found else some (i, j)) none

/-- Gives notice of an entry that disagrees with its difference quotient. -/
def compareEntry (tolerance : α) (J D : Mat α n n) (i j : Fin n) : Action α σ n Unit :=
  if abs (J[i][j] - D[i][j]) / (abs D[i][j] + 1) ≥ tolerance then do
    modifyWork fun w => { w with jacobianMismatches := w.jacobianMismatches + 1 }
    notify (.jacobianMismatch i j J[i][j] D[i][j])
  else pure ()

/-- Compares the Jacobian at `x` with difference quotients, if these are defined. -/
def compareWithDifferences (P : Problem α σ n) (x f : Vector α n) : Action α σ n Unit := do
  let w := (← get).work
  match ← differences P w.variableScale (fun _ => false) x f (fun _ => pure ())
      (Mat.zero n n) with
  | .error _ => pure ()
  | .ok D =>
    (List.finRange n).forM fun j =>
      (List.finRange n).forM fun i =>
        compareEntry P.options.checkTolerance w.jacobian D i j

/-- Marks the Jacobian as one that cannot be used. -/
def rejectJacobian : Action α σ n Unit :=
  modifyWork fun w => { w with flags.jacobianCurrent := false, jacobianAtPoint := false }

/-- Marks the Jacobian as evaluated at the current point. -/
def acceptJacobian : Action α σ n Unit :=
  modify fun s =>
    { s with
      counters.jacobianEvaluations := s.counters.jacobianEvaluations + 1
      eventSinceJacobian := false
      work :=
        { s.work.jacobianChanged with
          jacobianAtPoint := true
          jacobianAge := 0
          flags.forceNewJacobian := false } }

/-- Evaluates the Jacobian afresh at `x`, where the residual is `f`. -/
def evaluateJacobian (P : Problem α σ n) (x f : Vector α n) :
    Action α σ n (Except Mishap Unit) := do
  let (status, exact) ← sourceJacobian P x f
  match status with
  | .error mishap => do
    rejectJacobian
    pure (.error mishap)
  | .ok A =>
    match lastIllegalEntry? A with
    | some (i, j) => do
      rejectJacobian
      pure (.error (.illegalEntry i j))
    | none => do
      acceptJacobian
      if exact && P.options.checkJacobian then compareWithDifferences P x f
      pure (.ok ())

/-- The Jacobian after the last accepted step by the given secant formula; `none` without such a
step, or where the formula does not apply. -/
def secantUpdate? (update : JacobianUpdate) (w : Workspace α n) (f : Vector α n) :
    Option (Mat α n n) :=
  match w.history with
  | none => none
  | some ⟨step, old⟩ =>
    match update with
    | .broyden => broyden w.jacobian step old f w.variableScale
    | .sparseBroyden => sparseBroyden w.jacobian step old f
    | .modifiedBfgs => modifiedBfgs w.jacobian step old f w.variableScale w.residualScale
    | .full | .reuse => none

/-- What is to be done about the Jacobian. -/
inductive JacobianPlan (α : Type) (n : Nat) where
  /-- It was evaluated at this very point. -/
  | alreadyFresh
  | evaluate
  | keep
  /-- Take this secant update. -/
  | update (J : Mat α n n)

/-- What is to be done about the Jacobian in an iteration, counted from one, at a point with
residual `f`. -/
def planJacobian (o : Options α) (variability : Variability) (eventSince : Bool)
    (w : Workspace α n) (iteration : Nat) (f : Vector α n) : JacobianPlan α n :=
  if w.flags.forceNewJacobian ∨ !w.flags.jacobianCurrent then .evaluate
  else if w.jacobianAtPoint then .alreadyFresh
  else if iteration = 1 then
    if variability.reusable eventSince then .keep else .evaluate
  else if !variability.variesWithinSolve then .keep
  else if o.jacobianUpdate = .full then .evaluate
  else if w.jacobianAge ≥ o.maxJacobianAge then .evaluate
  else if o.jacobianUpdate = .reuse then .keep
  else
    match secantUpdate? o.jacobianUpdate w f with
    | some J => .update J
    | none => .evaluate

/-- Makes the Jacobian usable for an iteration, counted from one, at `x`, where the residual is `f`.
Tells whether it was evaluated at `x`. -/
def prepareJacobian (P : Problem α σ n) (iteration : Nat) (x f : Vector α n) :
    Action α σ n (Except Mishap Bool) := do
  let s ← get
  match planJacobian P.options P.variability s.eventSinceJacobian s.work iteration f with
  | .alreadyFresh => pure (.ok true)
  | .evaluate => do
    match ← evaluateJacobian P x f with
    | .ok () => pure (.ok true)
    | .error mishap => pure (.error mishap)
  | .keep => do
    modifyWork fun w => { w with jacobianAge := w.jacobianAge + 1 }
    pure (.ok false)
  | .update J => do
    modifyWork fun w =>
      { { w with jacobian := J }.jacobianChanged with jacobianAge := w.jacobianAge + 1 }
    pure (.ok false)

end

end AlgebraicLoop
