import AlgebraicLoop.JacobianUpkeep

/-!
# Scaling the residuals of a block

* `updateResidualScales`: new residual scales, as the options ask for them. The automatic ones need
  the residual and a fresh Jacobian at the current point; without these the old scales stay. A badly
  scaled Jacobian that is also ill-conditioned is marked to be treated as singular;
* `tightenResidualScales`: no scale greater than before, and none greater than the current Jacobian
  gives.
-/

namespace AlgebraicLoop
set_option autoImplicit false

section
variable {α σ : Type} [Scalar α] {n : Nat}

/-- Stores the scale of equation `i`, clamped; gives notice if it had to be. -/
def storeScale (o : Options α) (raw : Vector α n) (i : Fin n) : Action α σ n Unit := do
  let (scale, clamped) := clampScale raw[i] o.leastScale o.greatestScale
  if clamped then do
    modifyWork fun w => { w with flags.poorlyScaled := true }
    notify (.scaleClamped i raw[i] scale)
  modifyWork fun w => { w with residualScale := w.residualScale.set i scale i.isLt }

/-- Stores all scales, clamped. -/
def storeScales (o : Options α) (raw : Vector α n) : Action α σ n Unit :=
  (List.finRange n).forM (storeScale o raw)

/-- Raw scales from a fresh Jacobian at `x`; `none` when the residual or the Jacobian is not
defined there. -/
def freshRowScales (P : Problem α σ n) (x : Vector α n) :
    Action α σ n (Option (Vector α n)) := do
  match ← evaluate P x with
  | .error _ => pure none
  | .ok f =>
    match ← evaluateJacobian P x f with
    | .error _ => pure none
    | .ok () => do
      let s ← get
      pure (some (rowScales s.work.jacobian s.nominal x P.options.tolerance))

/-- Raw scales at the current point, as the options ask for them; `none` when they cannot be
had. -/
def rawScales (P : Problem α σ n) : Action α σ n (Option (Vector α n)) := do
  let mode := P.options.residualScaling
  let s ← get
  let automatic ←
    if mode.usesJacobian then freshRowScales P s.x else pure (some (Vector.replicate n 1))
  if mode = .manual ∨ mode = .hybrid then do
    let s ← get
    match P.model.residualNominals s.model with
    | some nominal => pure (automatic.map fun raw => manualScales raw nominal (mode = .hybrid))
    | none => pure automatic
  else pure automatic

/-- Looks at the condition of the scaled Jacobian when some scale was clamped, or when asked to. -/
def checkCondition (P : Problem α σ n) : Action α σ n Unit := do
  let w := (← get).work
  let doubtful := w.flags.poorlyScaled && !w.flags.singular
  if (doubtful || P.options.reportCondition) && w.flags.jacobianCurrent then do
    let condition := scaledCondition w.jacobian w.residualScale w.variableScale
    if P.options.reportCondition then notify (.condition condition)
    if doubtful && decide (condition > P.options.conditionLimit) then do
      notify (.illConditioned condition)
      modifyWork fun w => { w with premarkedSingular := true, factoredGeneration := none }

/-- Computes the residual scales anew, as the options ask for them. -/
def updateResidualScales (P : Problem α σ n) : Action α σ n Unit := do
  modifyWork fun w => { w with flags.forceRescaling := false }
  if P.options.residualScaling = .none then
    modifyWork fun w =>
      { w with residualScale := Vector.replicate n 1, flags.poorlyScaled := false }
  else
    match ← rawScales P with
    | none => pure ()
    | some raw => do
      modifyWork fun w => { w with flags.poorlyScaled := false }
      storeScales P.options raw
      checkCondition P

/-- Lowers each residual scale to the one that the current Jacobian gives at `x`, if that is
lower. -/
def tightenResidualScales (P : Problem α σ n) (x : Vector α n) : Action α σ n Unit := do
  let s ← get
  let raw := rowScales s.work.jacobian s.nominal x P.options.tolerance
  storeScales P.options
    (raw.zipWith (fun r old => if isNaN r then r else smaller r old) s.work.residualScale)

end

end AlgebraicLoop
