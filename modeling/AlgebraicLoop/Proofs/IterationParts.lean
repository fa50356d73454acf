import AlgebraicLoop.Proofs.Actions

/-!
# Iterations taken apart

An iteration is written down as one computation. Here its parts get names, and each computation is the
sequence of its parts.

* `withNominals`, `differencedJacobian`, `renewJacobian`: where scales and Jacobians come from;
* `afterRecoveryStep_eq`, `computeStep_eq`, `stepByFactors_found`: how a step is computed;
* `boundedStep_eq`: how it is kept inside the bounds;
* `Heading`, `iterateDamped_eq`: an iteration of the damped method up to its search, and after it;
* `firstAttempt_eq`, `tryRescaled_parts`, `rescaledRetry_runs`, `runDirect_eq`: the first attempt of
  the damped method, its retry with new scales, and the attempt of the direct method.
-/

namespace AlgebraicLoop
set_option autoImplicit false

section
variable {α σ : Type} [Scalar α] {n : Nat}

/-! ## Scales and Jacobians -/

/-- The model's own magnitudes, put in for the scales that were derived. -/
def withNominals (P : Problem α σ n) (automatic : Option (Vector α n)) :
    Action α σ n (Option (Vector α n)) := do
  let s ← get
  match P.model.residualNominals s.model with
  | some nominal =>
    pure (automatic.map fun raw => manualScales raw nominal (P.options.residualScaling = .hybrid))
  | none => pure automatic

/-- The Jacobian by difference quotients. Also tells that the model did not compute it. -/
def differencedJacobian (P : Problem α σ n) (x f : Vector α n) (w : Workspace α n) :
    Action α σ n (Except Mishap (Mat α n n) × Bool) :=
  match w.pattern with
  | some pattern => do
    let status ← groupedJacobian P pattern x f
    pure (status, false)
  | none => do
    let status ← differences P w.variableScale (isTwoSided P.options w x) x f storeJacobian
      w.jacobian
    pure (status, false)

/-- A Jacobian for an iteration, evaluated there. -/
def renewJacobian (P : Problem α σ n) (x f : Vector α n) : Action α σ n (Except Mishap Bool) := do
  match ← evaluateJacobian P x f with
  | .ok () => pure (.ok true)
  | .error mishap => pure (.error mishap)

/-! ## Steps -/

/-- The session in the phase of the recovery that is in use. -/
def Session.recovering (s : Session α σ n) : Session α σ n :=
  { s with
    phase := match s.work.recovery with
      | .regularization => .regularizing
      | .minimumNorm => .minimumNorm }

/-- What a step that stands in for another still does when it has left its marks. -/
def settleRecovery (P : Problem α σ n) : Action α σ n Unit := do
  if P.auxiliaryCount > 0 then do
    updateAuxiliary P (← get).x
  modify Session.recovering

omit [Scalar α] in
theorem afterRecoveryStep_eq (P : Problem α σ n) :
    afterRecoveryStep P = (do
      modifyWork fun w => { w with flags.forceNewJacobian := true }
      if P.options.rescaleAfterSingular then
        modifyWork fun w => { w with flags.forceRescaling := true }
      settleRecovery P) := rfl

/-- Makes sure of a factorization: the one at hand if it belongs to the Jacobian, else a new one. -/
def secureFactors (factor : Action α σ n Bool) : Action α σ n Bool := do
  if (← get).work.isFactored then pure true else factor

omit [Scalar α] in
theorem isFactored_iff {w : Workspace α n} : w.isFactored = true ↔
    w.factoredGeneration = some w.generation ∧ w.factorization.isPresent = true := by
  unfold Workspace.isFactored
  rw [Bool.and_eq_true_iff, beq_iff_eq]

section
variable {factor : Action α σ n Bool} {usable : Bool} {s t : Session α σ n}

omit [Scalar α] in
theorem secureFactors_kept (h : s.work.isFactored = true) : secureFactors factor s = .ok true s := by
  unfold secureFactors
  rw [get_bind_apply, if_pos h]
  rfl

omit [Scalar α] in
theorem secureFactors_due (h : s.work.isFactored = false) : secureFactors factor s = factor s := by
  unfold secureFactors
  rw [get_bind_apply, h]
  rfl

omit [Scalar α] in
theorem secureFactors_cases (h : secureFactors factor s = .ok usable t) :
    s.work.isFactored = true ∧ usable = true ∧ t = s ∨
      s.work.isFactored = false ∧ factor s = .ok usable t := by
  cases hfactored : s.work.isFactored with
  | true =>
    rw [secureFactors_kept hfactored] at h
    cases h
    exact .inl ⟨rfl, rfl, rfl⟩
  | false =>
    rw [secureFactors_due hfactored] at h
    exact .inr ⟨rfl, h⟩

end

/-- The step by the factorization at hand, if that is usable. -/
def stepByFactors (P : Problem α σ n) (f : Vector α n) (stepTolerance : α) (usable : Bool) :
    Action α σ n (Option (Vector α n × StepKind)) := do
  let s ← get
  match if usable then factoredStep? s.work s.nominal f stepTolerance else none with
  | none => pure none
  | some (step, kind) =>
    if !allFinite step then pure none
    else do
      if kind ≠ .newton then afterRecoveryStep P
      pure (some (step, kind))

theorem computeStep_eq (P : Problem α σ n) (f : Vector α n) (stepTolerance : α) :
    computeStep P f stepTolerance =
      secureFactors factorize >>= stepByFactors P f stepTolerance := by
  funext s
  unfold computeStep secureFactors
  rw [get_bind_apply, bind_assoc, get_bind_apply]
  split
  · rfl
  · rfl

/-- A step by the factorization at hand is finite, and one that is not Newton's is followed by what
comes after a recovery. -/
theorem stepByFactors_found {P : Problem α σ n} {f step : Vector α n} {stepTolerance : α}
    {usable : Bool} {kind : StepKind} {s t : Session α σ n}
    (h : stepByFactors P f stepTolerance usable s = .ok (some (step, kind)) t) :
    usable = true ∧ allFinite step = true ∧
      factoredStep? s.work s.nominal f stepTolerance = some (step, kind) ∧
        (t = s ∧ kind = .newton ∨ afterRecoveryStep P s = .ok () t) := by
  unfold stepByFactors at h
  rw [get_bind_apply] at h
  cases usable with
  | false => cases h
  | true =>
    cases hfound : factoredStep? s.work s.nominal f stepTolerance with
    | none =>
      simp only [hfound, if_true] at h
      cases h
    | some found =>
      simp only [hfound, if_true] at h
      split at h
      · cases h
      · next hfinite =>
        rw [Bool.not_eq_true', Bool.not_eq_false] at hfinite
        split at h
        · obtain ⟨_, u, hu, h⟩ := bind_eq_ok.1 h
          cases h
          exact ⟨rfl, hfinite, rfl, .inr hu⟩
        · next hnewton =>
          cases h
          exact ⟨rfl, hfinite, rfl, .inl ⟨rfl, Decidable.not_not.1 hnewton⟩⟩

/-- The chosen step, when it has been told which bound it was shortened for. -/
def tellLimiting (limit : StepLimit α n) (chosen : Vector α n × StepKind) :
    Action α σ n (Vector α n × StepKind) := do
  match limit.limiting with
  | some i => notify (.boundLimiting i limit.ratio)
  | none => pure ()
  pure chosen

theorem boundedStep_eq (P : Problem α σ n) (x f step : Vector α n) (kind : StepKind) :
    boundedStep P x f step kind =
      if P.options.enforceBounds then do
        let limit ← limitByBox P x step
        let chosen ←
          if limit.active = 0 then do
            modifyWork fun w => { w with flags.useSteepestDescent := false }
            pure (limit.step, kind)
          else do
            notify (.boundsActive limit.active)
            whenActive P x f limit.step kind
        tellLimiting limit chosen
      else pure (step, kind) := rfl

/-! ## Iterations of the damped method -/

/-- A step that an iteration is about to search along. -/
structure Heading (α : Type) (n : Nat) where
  fresh : Bool
  norm : α
  step : Vector α n
  kind : StepKind

/-- The norm of the residual `f` at `x`, with scales tightened where that is due. -/
def tightenedNorm (P : Problem α σ n) (tighten : Bool) (iteration : Nat) (fresh : Bool)
    (x f : Vector α n) (norm : α) : Action α σ n α :=
  if tightensNow P.options tighten iteration fresh then do
    tightenResidualScales P x
    pure (scaledNorm f (← get).work.residualScale)
  else pure norm

/-- An iteration up to its search: a step to search along, or an attempt that is given up. -/
def heading (P : Problem α σ n) (tol : Tolerances α) (descent tighten : Bool) (iteration : Nat)
    (f : Vector α n) (norm : α) (record : RunRecord α) :
    Action α σ n (Attempt α ⊕ Heading α n) := do
  let x := (← get).x
  match ← prepareJacobian P iteration x f with
  | .error _ => pure (.inl (record.stopped .jacobian))
  | .ok fresh => do
    let norm ← tightenedNorm P tighten iteration fresh x f norm
    match ← computeStep P f tol.step with
    | none => pure (.inl (record.stopped .linearSolve))
    | some (step, kind) => do
      let (step, kind) ← searchDirection P descent x f step kind
      pure (.inr ⟨fresh, norm, step, kind⟩)

theorem iterateDamped_eq (P : Problem α σ n) (tol : Tolerances α) (descent tighten : Bool)
    (iteration : Nat) (f : Vector α n) (norm : α) (record : RunRecord α) :
    iterateDamped P tol descent tighten iteration f norm record = (do
      let x := (← get).x
      match ← heading P tol descent tighten iteration f norm record with
      | .inl attempt => pure (.over attempt)
      | .inr h => searchAndMove P tol iteration h.fresh x f h.norm record h.step h.kind) := by
  funext s
  unfold iterateDamped heading tightenedNorm
  simp only [get_bind_apply, bind_assoc]
  refine congrFun (bind_congr fun answer => ?_) s
  cases answer with
  | error _ => rfl
  | ok fresh =>
    dsimp only
    split
    all_goals
      simp only [bind_assoc, pure_bind]
    · refine bind_congr fun _ => bind_congr fun t => bind_congr fun found => ?_
      cases found with
      | none => rfl
      | some found =>
        rw [bind_assoc]
        rfl
    · refine bind_congr fun found => ?_
      cases found with
      | none => rfl
      | some found =>
        rw [bind_assoc]
        rfl

/-! ## The damped method -/

/-- Evaluates the residual where the session is. There is no way out where it is undefined. -/
def checkPoint (P : Problem α σ n) : Action α σ n Unit := do
  match ← evaluate P (← get).x with
  | .ok _ => pure ()
  | .error mishap => fail (.initialEvaluation mishap)

/-- What follows on the run of the first attempt: its mark is lowered, and it may be refined. -/
def endFirst (P : Problem α σ n) (attempt : Attempt α) : Action α σ n (Standing α) := do
  modifyWork fun w => { w with firstAttempt := false }
  let report := Report.empty.add attempt
  let (attempt, refined) ← refineAttempt P attempt
  pure ⟨attempt, { report with refined }, (P.options.firstTolerances n).step⟩

theorem firstAttempt_eq (P : Problem α σ n) :
    firstAttempt P = (do
      modifyWork fun w => { w with firstAttempt := true, retrying := false }
      runDamped P (P.options.firstTolerances n) false >>= endFirst P) := rfl

/-! ## The retry with new residual scales -/

/-- The notices before a retry with new residual scales. -/
def Standing.rescalingNotices (standing : Standing α) (notices : Array (Notice α)) :
    Array (Notice α) :=
  match standing.attempt.failure with
  | some reason =>
    (notices.push (.firstAttemptFailed reason standing.attempt.record.residualNorm)).push .rescaling
  | none => notices.push .rescaling

/-- The verdict after a retry: a success stays one when the retry fails. -/
def Standing.after (standing : Standing α) (retry : Attempt α) : Attempt α :=
  if standing.attempt.failed || !retry.failed then retry else standing.attempt

/-- Tells why there is a retry with new residual scales. -/
def announceRetry (standing : Standing α) : Action α σ n Unit := do
  match standing.attempt.failure with
  | some reason => notify (.firstAttemptFailed reason standing.attempt.record.residualNorm)
  | none => pure ()
  notify .rescaling

/-- The attempt with new residual scales. -/
def rescaledRetry (P : Problem α σ n) : Action α σ n (Attempt α) := do
  updateResidualScales P
  modifyWork fun w => { w with retrying := true }
  let retry ← runDamped P P.options.retryTolerances false
  modifyWork fun w => { w with retrying := false }
  pure retry

/-- What follows on a retry: if all attempts failed so far, the next one starts anew. -/
def concludeRetry (P : Problem α σ n) (standing : Standing α) (retry : Attempt α) :
    Action α σ n (Standing α) := do
  if (standing.after retry).failed then
    modifyWork fun w => { w with flags.forceNewJacobian := true, flags.forceRescaling := true }
  pure ⟨standing.after retry, standing.report.add retry, P.options.retryTolerances.step⟩

/-- The session after a retry. -/
def Session.concluded (s : Session α σ n) (verdict : Attempt α) : Session α σ n :=
  { s with work := { s.work with flags :=
      if verdict.failed then
        { s.work.flags with forceNewJacobian := true, forceRescaling := true }
      else s.work.flags } }

omit [Scalar α] in
theorem Session.concluded_of_success (s : Session α σ n) {verdict : Attempt α}
    (h : verdict.failure = none) : s.concluded verdict = s := by
  unfold Session.concluded
  rw [if_neg]
  simp [Attempt.failed, h]

theorem concludeRetry_apply (P : Problem α σ n) (standing : Standing α) (retry : Attempt α)
    (s : Session α σ n) :
    concludeRetry P standing retry s =
      .ok ⟨standing.after retry, standing.report.add retry, P.options.retryTolerances.step⟩
        (s.concluded (standing.after retry)) := by
  unfold concludeRetry Session.concluded
  split
  · rfl
  · rfl

omit [Scalar α] in
/-- The verdict is that on the retry, unless a retry stopped short after a success. -/
theorem Standing.after_cases (standing : Standing α) (retry : Attempt α) :
    standing.after retry = retry ∨
      standing.attempt.failure = none ∧ retry.failed = true ∧
        standing.after retry = standing.attempt ∧
        ∀ notices, standing.rescalingNotices notices = notices.push .rescaling := by
  unfold Standing.after Standing.rescalingNotices
  split
  · exact .inl rfl
  · next hstalled =>
    obtain ⟨hopened, hfailed⟩ : standing.attempt.failed = false ∧ retry.failed = true := by
      simpa using hstalled
    have hfailure : standing.attempt.failure = none := by simpa [Attempt.failed] using hopened
    rw [hfailure]
    exact .inr ⟨rfl, hfailed, rfl, fun _ => rfl⟩

/-- A retry computes new scales and runs an attempt in them. -/
theorem rescaledRetry_runs {P : Problem α σ n} {retry : Attempt α} {s v : Session α σ n}
    (h : rescaledRetry P s = .ok retry v) :
    ∃ t u, updateResidualScales P s = .ok () t ∧
      runDamped P P.options.retryTolerances false
        { t with work := { t.work with retrying := true } } = .ok retry u ∧
      v = { u with work := { u.work with retrying := false } } := by
  obtain ⟨_, t, ht, h⟩ := bind_eq_ok.1 h
  rw [modifyWork_bind_apply] at h
  obtain ⟨attempt, u, hu, h⟩ := bind_eq_ok.1 h
  cases h
  exact ⟨t, u, ht, hu, rfl⟩

theorem tryRescaled_parts (P : Problem α σ n) (first : Bool) (standing : Standing α) :
    tryRescaled P first standing =
      if P.options.residualScaling ≠ .none ∧ (first = true ∨ standing.attempt.failed = true) then
        announceRetry standing >>= fun _ => rescaledRetry P >>= concludeRetry P standing
      else pure standing := by
  unfold tryRescaled announceRetry rescaledRetry
  simp only [bind_assoc, pure_bind]
  split
  · cases standing.attempt.failure with
    | some reason => rfl
    | none => rfl
  · rfl

theorem tryRescaled_apply (P : Problem α σ n) (first : Bool) (standing : Standing α)
    (s : Session α σ n) :
    tryRescaled P first standing s =
      if P.options.residualScaling ≠ .none ∧ (first = true ∨ standing.attempt.failed = true) then
        (rescaledRetry P >>= concludeRetry P standing)
          { s with notices := standing.rescalingNotices s.notices }
      else .ok standing s := by
  rw [tryRescaled_parts]
  unfold announceRetry Standing.rescalingNotices
  split
  · cases standing.attempt.failure with
    | some reason => rfl
    | none => rfl
  · rfl

/-! ## Attempts of the direct method -/

/-- The direct step from `x` by the factorization at hand, if that is usable. -/
def stepDirectly (P : Problem α σ n) (tol : Tolerances α) (x f : Vector α n) (norm : α)
    (usable : Bool) : Action α σ n (Attempt α) := do
  let w := (← get).work
  match if usable then directStep? w f else none with
  | none => pure ({ RunRecord.empty with residualNorm := norm }.stopped .linearSolve)
  | some (step, kind) => moveDirectly P tol x norm step kind

theorem runDirect_eq (P : Problem α σ n) (tol : Tolerances α) :
    runDirect P tol = (do
      let x := (← get).x
      match ← evaluate P x with
      | .error _ => pure (RunRecord.empty.stopped .initialEvaluation)
      | .ok f => do
        let norm := scaledNorm f (← get).work.residualScale
        match ← prepareJacobian P 1 x f with
        | .error _ => pure ({ RunRecord.empty with residualNorm := norm }.stopped .jacobian)
        | .ok _ => secureFactors factorDirect >>= stepDirectly P tol x f norm) := by
  unfold runDirect secureFactors
  refine bind_congr fun s => bind_congr fun answer => ?_
  cases answer with
  | error _ => rfl
  | ok f =>
    refine bind_congr fun t => bind_congr fun status => ?_
    cases status with
    | error _ => rfl
    | ok _ =>
      dsimp only
      rw [bind_assoc]
      refine bind_congr fun u => ?_
      split
      · rfl
      · rfl

end

end AlgebraicLoop
