import AlgebraicLoop.Proofs.CounterpartScales
import AlgebraicLoop.Proofs.SolveSteps

/-!
# Attempts of counterpart sessions

A step from corresponding Jacobians is the same in all units, and so are the slope of the merit along
it, the points that are tried, and the verdict. So two attempts evaluate the residual at the same points
and end alike.

* `factorize_unless`, `computeStep_unless`: the step of an iteration;
* `searchDirection_echoes`, `lineSearch_meets`: the search along it;
* `iterateDamped_unless`, `runDamped_unless`: whole iterations and attempts.
-/

namespace AlgebraicLoop
set_option autoImplicit false

section
variable {α σ ν : Type} [Scalar α] {n : Nat} {E : Exchange α σ ν n} {P : Problem α σ n}
  {s s' : Session α σ n}

/-! ## Factorizations -/

/-- The Jacobians are in step, and it has been noted that they are being factored. -/
structure Pinned (U : UnitChange α n) (g g' : Gear α n) : Prop where
  scale : U.Scaled g.residualScale g'.residualScale
  jacobian : g'.jacobian = U.matrix g.jacobian
  current : g'.current = g.current
  forced : g'.forced = g.forced
  atPoint : g'.atPoint = g.atPoint
  age : g'.age = g.age
  eventSince : g'.eventSince = g.eventSince
  pinned : g.factoredGeneration = some g.generation
  pinned' : g'.factoredGeneration = some g'.generation

theorem StepsAlike.present {U : UnitChange α n} {F F' : Factorization α n} (h : StepsAlike U F F') :
    F'.isPresent = F.isPresent := by
  cases h with
  | same _ _ => rfl
  | lu _ => rfl

theorem Pinned.kept {U : UnitChange α n} {g g' : Gear α n} (h : Pinned U g g')
    {F F' : Factorization α n} (hF : StepsAlike U F F') :
    Kept U U.Scaled { g with factorization := F } { g' with factorization := F' } where
  sane k hk := by
    cases h.pinned.symm.trans hk
    exact Nat.le_refl _
  sane' k hk := by
    cases h.pinned'.symm.trans hk
    exact Nat.le_refl _
  scale := h.scale
  jacobian := h.jacobian
  current := h.current
  forced := h.forced
  atPoint := h.atPoint
  age := h.age
  eventSince := h.eventSince
  factored := by simp [Gear.isFactored, h.pinned, h.pinned', hF.present]
  alike _ := hF

/-- Both sessions have a factorization that gives the same steps, or neither has one. -/
def Factored (E : Exchange α σ ν n) (v v' : Bool) (t t' : Session α σ n) : Prop :=
  v' = v ∧ Mirror E (Kept E.units E.units.Scaled) t t' ∧
    (v = true → StepsAlike E.units t.work.factorization t'.work.factorization)

theorem Mirror.noted {T : Gear α n → Gear α n → Prop} (h : Mirror E T s s')
    (notice notice' : Notice α) :
    Mirror E T { s with notices := s.notices.push notice }
      { s' with notices := s'.notices.push notice' } :=
  ⟨h.core, h.gear, h.view, h.points⟩

/-- Where the units are the same, Jacobians and residual scales in step are the same. -/
theorem system_of_none {U : UnitChange α n} {J J' : Mat α n n} {d d' : Vector α n} (hU : U = .none)
    (hJ : J' = U.matrix J) (hd : U.Scaled d d') : J' = J ∧ d' = d := by
  subst hU
  exact ⟨hJ.trans (UnitChange.none_matrix J), hd.trans (UnitChange.none_scales d)⟩

section
variable {H : Session α σ n → Session α σ n → Prop}

/-- Where the units are the same, what stands in for a singular Jacobian is the same. -/
theorem standIn_mirror (hunits : E.units = .none) (h : Mirror E (Pinned E.units) s s')
    (mode : RecoveryMode) : standIn mode s'.work = standIn mode s.work := by
  obtain ⟨hjacobian, hscale⟩ : s'.work.jacobian = s.work.jacobian ∧
      s'.work.residualScale = s.work.residualScale :=
    system_of_none hunits h.gear.jacobian h.gear.scale
  unfold standIn regularizedNormal
  rw [hjacobian, hscale, h.variableScale]

theorem recoverSingular_meets (hunits : E.units = .none) (premarked : Bool)
    (h : Mirror E (Pinned E.units) s s') :
    Meets (Factored E) H (recoverSingular premarked s) (recoverSingular premarked s') := by
  obtain ⟨mode, _, hmode, hrun⟩ := recoverSingular_run premarked s
  obtain ⟨mode', _, hmode', hrun'⟩ := recoverSingular_run premarked s'
  obtain rfl : mode' = mode := by rw [hmode', hmode, h.singular]
  rw [standIn_mirror hunits h] at hrun'
  rw [hrun, hrun']
  generalize standIn mode' s.work = r
  have hcore := congrArg
    (fun c : Core α n => { c with singular := true, recovery := r.recovery }) h.core
  have hsteps : StepsAlike E.units r.factorization r.factorization := .same _ hunits
  exact ⟨rfl, ⟨hcore, h.gear.kept hsteps, h.view, h.points⟩, fun _ => hsteps⟩

/-- A Jacobian that cannot be factored leaves a notice. -/
theorem recoverSingular_disturbs (P : Problem α σ n) (premarked : Bool) (s : Session α σ n) :
    ¬ (final (recoverSingular premarked s)).Calm := by
  unfold recoverSingular
  rw [get_bind_apply]
  dsimp only
  generalize (if premarked = true ∨ (!s.work.flags.singular) = true then RecoveryMode.regularization
    else RecoveryMode.minimumNorm) = mode
  rw [modifyWork_bind_apply, notify_bind_apply]
  intro hcalm
  have hgrows := ((closed_grows P true (Session.footing P)).factorRecovery mode).final
    { s with
      work := { s.work with flags.singular := true, recovery := mode }
      notices := s.notices.push (.singularJacobian s.work.generation) }
  exact Session.not_calm_push (s := s) rfl rfl (hcalm.before hgrows)

theorem recoverSingular_unless (P : Problem α σ n) (premarked : Bool)
    (h : Mirror E (Pinned E.units) s s') :
    Unless E (Factored E) H (recoverSingular premarked s) (recoverSingular premarked s') := by
  by_cases hunits : E.units = .none
  · exact (recoverSingular_meets hunits premarked h).unless
  · exact .inl ⟨hunits, fun hcalm => recoverSingular_disturbs P premarked s hcalm.1⟩

theorem factorize_unless (P : Problem α σ n)
    (h : Mirror E (Kept E.units E.units.Scaled) s s') :
    Unless E (Factored E) H (factorize s) (factorize s') := by
  have hpremarked : s'.work.premarkedSingular = s.work.premarkedSingular :=
    congrArg Core.premarkedSingular h.core
  have hjacobian : s'.work.jacobian = E.units.matrix s.work.jacobian := h.gear.jacobian
  have hcore := congrArg (fun c : Core α n => { c with premarkedSingular := false }) h.core
  have hpinned : Mirror E (Pinned E.units) s.factoring s'.factoring :=
    ⟨hcore, ⟨h.gear.scale, h.gear.jacobian, h.gear.current, h.gear.forced, h.gear.atPoint,
      h.gear.age, h.gear.eventSince, rfl, rfl⟩, h.view, h.points⟩
  rw [factorize_apply, factorize_apply, hpremarked, hjacobian]
  split
  · exact recoverSingular_unless P true hpinned
  · cases hleft : LU.factor s.work.jacobian with
    | ok lu =>
      cases hright : LU.factor (E.units.matrix s.work.jacobian) with
      | ok lu' =>
        have hsteps : StepsAlike E.units (.lu lu) (.lu lu') :=
          .lu fun f hf => E.units.solve _ lu lu' f hleft hright hf
        have hcore := congrArg (fun c : Core α n =>
          { c with singular := false, recovery := .regularization }) hpinned.core
        exact .inr ⟨rfl, ⟨hcore, hpinned.gear.kept hsteps, h.view, h.points⟩, fun _ => hsteps⟩
      | error _ =>
        refine .inl ⟨fun hunits => ?_, fun hcalm => recoverSingular_disturbs P false _ hcalm.2⟩
        rw [hunits, UnitChange.none_matrix, hleft] at hright
        cases hright
    | error _ =>
      cases hright : LU.factor (E.units.matrix s.work.jacobian) with
      | ok lu' =>
        refine .inl ⟨fun hunits => ?_, fun hcalm => recoverSingular_disturbs P false _ hcalm.1⟩
        rw [hunits, UnitChange.none_matrix, hleft] at hright
        cases hright
      | error _ => exact recoverSingular_unless P false hpinned

theorem secureFactors_unless (P : Problem α σ n)
    (h : Mirror E (Kept E.units E.units.Scaled) s s') :
    Unless E (Factored E) H (secureFactors factorize s) (secureFactors factorize s') := by
  have hfactored : s'.work.isFactored = s.work.isFactored := h.gear.factored
  cases hready : s.work.isFactored with
  | true =>
    rw [secureFactors_kept hready, secureFactors_kept (hfactored.trans hready)]
    exact .inr ⟨rfl, h, fun _ => h.gear.alike hready⟩
  | false =>
    rw [secureFactors_due hready, secureFactors_due (hfactored.trans hready)]
    exact factorize_unless P h

end

/-! ## Steps -/

theorem factoredStep_mirror (h : Mirror E (Kept E.units E.units.Scaled) s s')
    (hsteps : StepsAlike E.units s.work.factorization s'.work.factorization) {f : Vector α n}
    (hf : allFinite f = true) (stepTolerance : α) :
    factoredStep? s'.work s'.nominal (E.units.residual f) stepTolerance =
      factoredStep? s.work s.nominal f stepTolerance := by
  unfold factoredStep?
  generalize hF : s.work.factorization = F at hsteps
  generalize hF' : s'.work.factorization = F' at hsteps
  cases hsteps with
  | lu hsolve => exact congrArg (fun step => some (step, StepKind.newton)) (hsolve f hf)
  | same _ hunits =>
    obtain ⟨hjacobian, hscale⟩ : s'.work.jacobian = s.work.jacobian ∧
        s'.work.residualScale = s.work.residualScale :=
      system_of_none hunits h.gear.jacobian h.gear.scale
    rw [hunits, UnitChange.none_residual, h.nominal, hjacobian]
    unfold regularizedSide
    rw [hjacobian, hscale, h.variableScale]

theorem afterRecoveryStep_echoes (hE : E.Fits P) :
    Echoes E (Kept E.units E.units.Scaled) id (afterRecoveryStep P)
      (afterRecoveryStep (E.problem P)) := by
  have phase : Echoes E (Kept E.units E.units.Scaled) id
      (modify Session.recovering : Action α σ n Unit) (modify Session.recovering) :=
    fun _ _ h => ⟨rfl, h.core, h.gear, h.view, h.points⟩
  have hoptions : (E.problem P).options = P.options := rfl
  have hcount : (E.problem P).auxiliaryCount = P.auxiliaryCount := rfl
  have rest : Echoes E (Kept E.units E.units.Scaled) id (settleRecovery P)
      (settleRecovery (E.problem P)) := by
    unfold settleRecovery
    rw [hcount]
    split
    · intro s s' h
      rw [get_bind_apply, get_bind_apply, h.x]
      exact (updateAuxiliary_echoes hE.determined s.x).seq (fun _ => phase) s s' h
    · exact phase
  intro s s' h
  have hforced : Mirror E (Kept E.units E.units.Scaled) s.pressed s'.pressed :=
    ⟨h.core, { h.gear with forced := rfl }, h.view, h.points⟩
  rw [afterRecoveryStep_eq, afterRecoveryStep_eq, modifyWork_bind_apply, modifyWork_bind_apply,
    hoptions]
  dsimp only
  split
  · rw [modifyWork_bind_apply, modifyWork_bind_apply]
    have hcore := congrArg (fun c : Core α n => { c with forceRescaling := true }) h.core
    exact rest _ _ ⟨hcore, hforced.gear, h.view, h.points⟩
  · exact rest _ _ hforced

theorem stepByFactors_echoes (hE : E.Fits P) {f : Vector α n} (hf : allFinite f = true)
    (stepTolerance : α) {usable usable' : Bool} (h : Factored E usable usable' s s') :
    Meets (fun v v' t t' => v' = v ∧ Mirror E (Kept E.units E.units.Scaled) t t')
      (Mirror E (Kept E.units E.units.Scaled)) (stepByFactors P f stepTolerance usable s)
      (stepByFactors (E.problem P) (E.units.residual f) stepTolerance usable' s') := by
  obtain ⟨husable, h, hsteps⟩ := h
  subst husable
  unfold stepByFactors
  rw [get_bind_apply, get_bind_apply]
  cases usable' with
  | false => exact ⟨rfl, h⟩
  | true =>
    rw [if_pos rfl, if_pos rfl, factoredStep_mirror h (hsteps rfl) hf]
    cases factoredStep? s.work s.nominal f stepTolerance with
    | none => exact ⟨rfl, h⟩
    | some found =>
      obtain ⟨step, kind⟩ := found
      dsimp only
      split
      · exact ⟨rfl, h⟩
      · split
        · refine (afterRecoveryStep_echoes hE s s' h).bind fun _ _ t t' ⟨_, ht⟩ => ⟨rfl, ht⟩
        · exact ⟨rfl, h⟩

/-! ## Directions -/

theorem limitByBox_echoes {T : Gear α n → Gear α n → Prop} (x step : Vector α n) :
    Echoes E T id (limitByBox P x step) (limitByBox (E.problem P) x step) := by
  intro s s' h
  have hlimit : (s'.work.box.limitStep x s'.nominal step (P.options.activeRatio n)
      P.options.stepLimitFactor).2 = (s.work.box.limitStep x s.nominal step
      (P.options.activeRatio n) P.options.stepLimitFactor).2 := by
    rw [← Box.limitStep_of_blank, h.box, h.nominal, Box.limitStep_of_blank]
  have limited : ∀ t : Session α σ n, { t with work := { t.work with
      box := (t.work.box.limitStep x t.nominal step (P.options.activeRatio n)
        P.options.stepLimitFactor).1 } }.core = t.core := by
    intro t
    unfold Session.core
    rw [Box.blank_limitStep]
  rw [limitByBox_apply, limitByBox_apply]
  exact ⟨hlimit, (limited s').trans (h.core.trans (congrArg E.units.core (limited s).symm)), h.gear,
    h.view, h.points⟩

theorem steepest_echoes {T : Gear α n → Gear α n → Prop} (use : Bool) :
    Echoes E T id
      (modifyWork fun w => { w with flags.useSteepestDescent := use } : Action α σ n Unit)
      (modifyWork fun w => { w with flags.useSteepestDescent := use }) := by
  intro s s' h
  have hcore := congrArg (fun c : Core α n => { c with useSteepestDescent := use }) h.core
  exact ⟨rfl, hcore, h.gear, h.view, h.points⟩

theorem descentStep_mirror (h : Mirror E (Kept E.units E.units.Scaled) s s') (f step : Vector α n) :
    descentStep s'.work (E.units.residual f) step = descentStep s.work f step := by
  have hjacobian : s'.work.jacobian = E.units.matrix s.work.jacobian := h.gear.jacobian
  have hscale : s'.work.residualScale = E.units.scales s.work.residualScale := h.gear.scale
  unfold descentStep
  rw [hjacobian, hscale, E.units.steepestDescent_eq]

theorem whenActive_echoes (x f step : Vector α n) (kind : StepKind) :
    Echoes E (Kept E.units E.units.Scaled) id (whenActive P x f step kind)
      (whenActive (E.problem P) x (E.units.residual f) step kind) := by
  intro s s' h
  have hjacobian : s'.work.jacobian = E.units.matrix s.work.jacobian := h.gear.jacobian
  have hscale : s'.work.residualScale = E.units.scales s.work.residualScale := h.gear.scale
  have hoptions : (E.problem P).options = P.options := rfl
  unfold whenActive
  rw [get_bind_apply, get_bind_apply, hoptions, descentStep_mirror h, hjacobian, hscale,
    E.units.meritSlope_eq]
  dsimp only
  split
  · have chosen : Echoes E (Kept E.units E.units.Scaled) id
        (do
          notify .descentForced
          let limit ← limitByBox P x (descentStep s.work f step)
          modifyWork fun w => { w with flags.useSteepestDescent := true }
          pure (limit.step, StepKind.steepestDescent) : Action α σ n (Vector α n × StepKind))
        (do
          notify .descentForced
          let limit ← limitByBox (E.problem P) x (descentStep s.work f step)
          modifyWork fun w => { w with flags.useSteepestDescent := true }
          pure (limit.step, StepKind.steepestDescent)) :=
      (notify_echoes _ _).seq fun _ => (limitByBox_echoes x _).seq fun _ =>
        (steepest_echoes true).seq fun _ => Echoes.value rfl
    exact chosen s s' h
  · exact ⟨rfl, h⟩

theorem boundedStep_echoes (x f step : Vector α n) (kind : StepKind) :
    Echoes E (Kept E.units E.units.Scaled) id (boundedStep P x f step kind)
      (boundedStep (E.problem P) x (E.units.residual f) step kind) := by
  have hoptions : (E.problem P).options = P.options := rfl
  rw [boundedStep_eq, boundedStep_eq, hoptions]
  split
  · refine (limitByBox_echoes x step).seq fun limit => ?_
    have rest : ∀ chosen, Echoes E (Kept E.units E.units.Scaled) id
        (tellLimiting limit chosen : Action α σ n (Vector α n × StepKind))
        (tellLimiting limit chosen) := by
      intro chosen
      unfold tellLimiting
      cases limit.limiting with
      | some i => exact (notify_echoes _ _).seq fun _ => Echoes.value rfl
      | none => exact Echoes.value rfl
    dsimp only [id]
    split
    · exact (steepest_echoes false).seq fun _ => rest _
    · exact (notify_echoes _ _).seq fun _ => (whenActive_echoes x f _ kind).seq rest
  · exact Echoes.value rfl

theorem searchDirection_echoes (descent : Bool) (x f step : Vector α n) (kind : StepKind) :
    Echoes E (Kept E.units E.units.Scaled) id (searchDirection P descent x f step kind)
      (searchDirection (E.problem P) descent x (E.units.residual f) step kind) := by
  intro s s' h
  have hsteepest : s'.work.flags.useSteepestDescent = s.work.flags.useSteepestDescent :=
    congrArg Core.useSteepestDescent h.core
  unfold searchDirection
  rw [get_bind_apply, get_bind_apply, hsteepest, descentStep_mirror h]
  split
  · exact boundedStep_echoes x f _ _ s s' h
  · exact boundedStep_echoes x f _ _ s s' h

/-! ## Searches -/

/-- An accepted point, with its residual in other units. -/
def UnitChange.accepted (U : UnitChange α n) (a : Accepted α n) : Accepted α n :=
  { a with f := U.residual a.f }

/-- The same point was accepted, with a residual that is finite, or the search failed alike. -/
def Searched (E : Exchange α σ ν n) (T : Gear α n → Gear α n → Prop)
    (v v' : Except FailureReason (Accepted α n)) (t t' : Session α σ n) : Prop :=
  v' = v.map E.units.accepted ∧ (∀ a, v = .ok a → allFinite a.f = true) ∧ Mirror E T t t'

theorem Searched.of_error {T : Gear α n → Gear α n → Prop} {reason : FailureReason}
    (h : Mirror E T s s') : Searched E T (.error reason) (.error reason) s s' :=
  ⟨rfl, fun _ h => (by cases h), h⟩

theorem backtrack_meets {T : Gear α n → Gear α n → Prop} (hP : Determined P.model E.view)
    (x step scale : Vector α n) (start slope leastDamping : α) (budget : Nat) (damping : α)
    (h : Mirror E T s s') :
    Meets (Searched E T) (Mirror E T)
      (backtrack P x step scale start slope leastDamping budget damping s)
      (backtrack (E.problem P) x step (E.units.scales scale) start slope leastDamping budget damping
        s') := by
  induction budget generalizing damping s s' with
  | zero => exact .of_error h
  | succ budget ih =>
    unfold backtrack
    split
    · exact Searched.of_error h
    · refine (evaluate_meets hP h (along x step damping)).bind fun v v' t t' hevaluated => ?_
      obtain ⟨rfl, hfinite, ht⟩ := hevaluated
      cases v with
      | error _ => exact ih (damping * 0.5) ht
      | ok g =>
        dsimp only [Except.map]
        rw [E.units.merit_eq]
        split
        · refine ⟨rfl, fun a ha => ?_, ht⟩
          cases ha
          exact hfinite g rfl
        · cases shorten? start (merit g scale) slope damping with
          | none => exact ⟨rfl, ht⟩
          | some next => exact ih next ht

theorem lineSearch_meets (hP : Determined P.model E.view) (x f step : Vector α n)
    (length stepTolerance : α) (h : Mirror E (Kept E.units E.units.Scaled) s s') :
    Meets (Searched E (Kept E.units E.units.Scaled)) (Mirror E (Kept E.units E.units.Scaled))
      (lineSearch P x f step length stepTolerance s)
      (lineSearch (E.problem P) x (E.units.residual f) step length stepTolerance s') := by
  have hjacobian : s'.work.jacobian = E.units.matrix s.work.jacobian := h.gear.jacobian
  have hscale : s'.work.residualScale = E.units.scales s.work.residualScale := h.gear.scale
  have hoptions : (E.problem P).options = P.options := rfl
  unfold lineSearch
  rw [get_bind_apply, get_bind_apply, hoptions, hjacobian, hscale, E.units.merit_eq,
    E.units.downhillSlope_eq]
  split
  · exact Searched.of_error h
  · exact backtrack_meets hP x step _ _ _ _ _ 1 h

/-- What an iteration came to in both sessions. -/
def Progressed (E : Exchange α σ ν n) (P : Problem α σ n) (v v' : Progress α n)
    (t t' : Session α σ n) : Prop :=
  (∃ attempt, v = .over attempt ∧ v' = .over attempt ∧
      Mirror E (Geared P E.units E.units.Scaled) t t') ∨
    ∃ f norm record, v = .onward f norm record ∧ v' = .onward (E.units.residual f) norm record ∧
      allFinite f = true ∧ Mirror E (Kept E.units E.units.Scaled) t t'

theorem Mirror.moved (h : Mirror E (Kept E.units E.units.Scaled) s s') (x f : Vector α n)
    (a : Accepted α n) :
    Mirror E (Kept E.units E.units.Scaled) (s.moved x f a)
      (s'.moved x (E.units.residual f) (E.units.accepted a)) := by
  have hscale : s'.work.residualScale = E.units.scales s.work.residualScale := h.gear.scale
  have hnorm : scaledNorm (E.units.residual a.f) s'.work.residualScale =
      scaledNorm a.f s.work.residualScale := by rw [hscale, E.units.scaledNorm_eq]
  refine ⟨?_, { h.gear with atPoint := rfl }, h.view, h.points⟩
  have hcore := congrArg (fun c : Core α n => { c with
    x := a.x
    history := some ⟨a.x.zipWith (· - ·) x, E.units.residual f⟩
    lastNorm := scaledNorm (E.units.residual a.f) s'.work.residualScale }) h.core
  refine hcore.trans ?_
  rw [hnorm]
  rfl

theorem searchAndMove_meets (hP : Determined P.model E.view) (tol : Tolerances α) (iteration : Nat)
    (fresh : Bool) (x : Vector α n) {f : Vector α n} (hf : allFinite f = true) (norm : α)
    (record : RunRecord α) (step : Vector α n) (kind : StepKind)
    (h : Mirror E (Kept E.units E.units.Scaled) s s') :
    Meets (Progressed E P) (Mirror E (Kept E.units E.units.Scaled))
      (searchAndMove P tol iteration fresh x f norm record step kind s)
      (searchAndMove (E.problem P) tol iteration fresh x (E.units.residual f) norm record step kind
        s') := by
  have hoptions : (E.problem P).options = P.options := rfl
  unfold searchAndMove
  rw [modify_bind_apply, modify_bind_apply, get_bind_apply, get_bind_apply, hoptions,
    h.variableScale]
  dsimp only
  have hphase : Mirror E (Kept E.units E.units.Scaled) { s with phase := kind.phase }
      { s' with phase := kind.phase } := ⟨h.core, h.gear, h.view, h.points⟩
  refine (lineSearch_meets hP x f step _ tol.step hphase).bind fun v v' t t' ⟨hv, hfinite, ht⟩ => ?_
  subst hv
  cases v with
  | error reason =>
    dsimp only [Except.map]
    split
    · rw [modifyWork_bind_apply, modifyWork_bind_apply]
      have hpressed : Mirror E (Kept E.units E.units.Scaled) t.pressed t'.pressed :=
        ⟨ht.core, { ht.gear with forced := rfl }, ht.view, ht.points⟩
      exact .inr ⟨f, norm, record, rfl, rfl, hf, hpressed⟩
    · split
      · exact .inl ⟨_, rfl, rfl, ht.mono .inl⟩
      · exact .inl ⟨_, rfl, rfl, ht.mono .inl⟩
  | ok a =>
    have hmoved := ht.moved x f a
    have hnorm : (t'.moved x (E.units.residual f) (E.units.accepted a)).work.lastNorm =
        (t.moved x f a).work.lastNorm := congrArg Core.lastNorm hmoved.core
    dsimp only [Except.map]
    rw [moveTo_bind_apply, moveTo_bind_apply, get_bind_apply, get_bind_apply, hnorm]
    dsimp only [UnitChange.accepted]
    generalize verdictAfterStep P.options tol _ _ _ = verdict
    cases verdict with
    | some attempt => exact .inl ⟨_, rfl, rfl, hmoved.mono .inl⟩
    | none => exact .inr ⟨a.f, _, _, rfl, rfl, hfinite a rfl, hmoved⟩

/-! ## Iterations and attempts -/

theorem Mirror.loosened (h : Mirror E (Kept E.units E.units.Scaled) s s') :
    Mirror E (Loose E.units.Scaled) s s' := h.mono Kept.toLoose

theorem tightenedNorm_unless {H : Session α σ n → Session α σ n → Prop} (tighten : Bool)
    (iteration : Nat) (fresh : Bool) (x f : Vector α n) (norm : α)
    (h : Mirror E (Kept E.units E.units.Scaled) s s') :
    Unless E (fun v v' t t' => v' = v ∧ Mirror E (Kept E.units E.units.Scaled) t t') H
      (tightenedNorm P tighten iteration fresh x f norm s)
      (tightenedNorm (E.problem P) tighten iteration fresh x (E.units.residual f) norm s') := by
  have hoptions : (E.problem P).options = P.options := rfl
  unfold tightenedNorm
  rw [hoptions]
  split
  · refine (tightenResidualScales_unless x h).bind (fun _ _ t t' ht => ?_)
      (fun _ t => Grows.refl t) fun _ t => Grows.refl t
    have hscale : t'.work.residualScale = E.units.scales t.work.residualScale := ht.gear.scale
    rw [get_bind_apply, get_bind_apply, hscale, E.units.scaledNorm_eq]
    exact .inr ⟨rfl, ht⟩
  · exact .inr ⟨rfl, h⟩

theorem computeStep_unless (hE : E.Fits P) {f : Vector α n} (hf : allFinite f = true)
    (stepTolerance : α) (h : Mirror E (Kept E.units E.units.Scaled) s s') :
    Unless E (fun v v' t t' => v' = v ∧ Mirror E (Kept E.units E.units.Scaled) t t')
      (Mirror E (Loose E.units.Scaled)) (computeStep P f stepTolerance s)
      (computeStep (E.problem P) (E.units.residual f) stepTolerance s') := by
  have grows : ∀ (Q : Problem α σ n) (g : Vector α n) usable,
      Follows Grows (stepByFactors Q g stepTolerance usable) := by
    intro Q g usable
    have hC := closed_grows Q true (Session.footing Q)
    refine hC.read (fun _ _ => rfl) fun s => ?_
    dsimp only
    split
    · exact hC.value _
    · split
      · exact hC.value _
      · split
        · exact hC.seq hC.afterRecoveryStep fun _ => hC.value _
        · exact hC.value _
  rw [computeStep_eq, computeStep_eq]
  refine (secureFactors_unless P h).bind (fun usable usable' t t' ht => ?_) (grows P f)
    (grows (E.problem P) (E.units.residual f))
  exact ((stepByFactors_echoes hE hf stepTolerance ht).mono (fun _ _ _ _ hv => hv) fun _ _ hu =>
    hu.loosened).unless

/-- The step of an iteration once its norm is known. -/
def stepOnward (P : Problem α σ n) (tol : Tolerances α) (descent fresh : Bool) (x f : Vector α n)
    (record : RunRecord α) (norm : α) : Action α σ n (Attempt α ⊕ Heading α n) := do
  match ← computeStep P f tol.step with
  | none => pure (.inl (record.stopped .linearSolve))
  | some (step, kind) => do
    let (step, kind) ← searchDirection P descent x f step kind
    pure (.inr ⟨fresh, norm, step, kind⟩)

theorem grows_direct (P : Problem α σ n) (descent fresh : Bool) (x f : Vector α n)
    (record : RunRecord α) (norm : α) (found : Option (Vector α n × StepKind)) :
    Follows Grows (match found with
      | none => pure (.inl (record.stopped .linearSolve))
      | some (step, kind) => do
        let (step, kind) ← searchDirection P descent x f step kind
        pure (.inr ⟨fresh, norm, step, kind⟩) : Action α σ n (Attempt α ⊕ Heading α n)) := by
  have hC := closed_grows P true (Session.grip P)
  cases found with
  | none => exact hC.value _
  | some found => exact hC.seq (hC.searchDirection descent x f _ _) fun _ => hC.value _

theorem grows_stepOnward (P : Problem α σ n) (tol : Tolerances α) (descent fresh : Bool)
    (x f : Vector α n) (record : RunRecord α) (norm : α) :
    Follows Grows (stepOnward P tol descent fresh x f record norm) :=
  (closed_grows P true (Session.footing P)).seq
    ((closed_grows P true (Session.footing P)).computeStep f tol.step)
    fun found => grows_direct P descent fresh x f record norm found

/-- An attempt that is given up alike, or a step to search along. -/
def Headed (E : Exchange α σ ν n) (P : Problem α σ n) (v v' : Attempt α ⊕ Heading α n)
    (t t' : Session α σ n) : Prop :=
  v' = v ∧ Mirror E (Geared P E.units E.units.Scaled) t t' ∧
    ∀ q, v = .inr q → Mirror E (Kept E.units E.units.Scaled) t t'

theorem stepOnward_unless (hE : E.Fits P) (tol : Tolerances α) (descent fresh : Bool)
    (x : Vector α n) {f : Vector α n} (hf : allFinite f = true) (record : RunRecord α) (norm : α)
    (h : Mirror E (Kept E.units E.units.Scaled) s s') :
    Unless E (Headed E P) (Mirror E (Loose E.units.Scaled))
      (stepOnward P tol descent fresh x f record norm s)
      (stepOnward (E.problem P) tol descent fresh x (E.units.residual f) record norm s') := by
  refine (computeStep_unless hE hf tol.step h).bind (fun v v' t t' ⟨hv, ht⟩ => ?_)
    (grows_direct P descent fresh x f record norm)
    (grows_direct (E.problem P) descent fresh x (E.units.residual f) record norm)
  subst hv
  cases v' with
  | none => exact .inr ⟨rfl, ht.mono .inl, nofun⟩
  | some found =>
    obtain ⟨step, kind⟩ := found
    have hdirection := (searchDirection_echoes (P := P) descent x f step kind t t' ht).mono
      (fun _ _ _ _ hv => hv) fun _ _ hu => hu.loosened
    refine (hdirection.bind fun v v' u u' ⟨hv, hu⟩ => ?_).unless
    subst hv
    exact ⟨rfl, hu.mono .inl, fun _ _ => hu⟩

theorem heading_eq (P : Problem α σ n) (tol : Tolerances α) (descent tighten : Bool)
    (iteration : Nat) (f : Vector α n) (norm : α) (record : RunRecord α) :
    heading P tol descent tighten iteration f norm record = (do
      let x := (← get).x
      match ← prepareJacobian P iteration x f with
      | .error _ => pure (.inl (record.stopped .jacobian))
      | .ok fresh => do
        let norm ← tightenedNorm P tighten iteration fresh x f norm
        stepOnward P tol descent fresh x f record norm) := rfl

theorem heading_unless (hE : E.Fits P) (tol : Tolerances α) (descent tighten : Bool)
    (iteration : Nat) {f : Vector α n} (hf : allFinite f = true) (norm : α) (record : RunRecord α)
    (h : Mirror E (Ready P E.units iteration) s s') :
    Unless E (Headed E P) (Mirror E (Loose E.units.Scaled))
      (heading P tol descent tighten iteration f norm record s)
      (heading (E.problem P) tol descent tighten iteration (E.units.residual f) norm record s') := by
  rw [heading_eq, heading_eq, get_bind_apply, get_bind_apply, h.x]
  refine (prepareJacobian_meets hE iteration s.x f h).bind_unless
    fun v v' t t' ⟨hv, hkept, hrejected⟩ => ?_
  subst hv
  cases v' with
  | error mishap =>
    exact .inr ⟨rfl, (hrejected mishap rfl).mono fun hg => .inr hg.stale, nofun⟩
  | ok fresh =>
    refine (tightenedNorm_unless tighten iteration fresh s.x f norm (hkept fresh rfl)).bind
      (fun v v' u u' ⟨hv, hu⟩ => ?_) (grows_stepOnward P tol descent fresh s.x f record)
      (grows_stepOnward (E.problem P) tol descent fresh s.x (E.units.residual f) record)
    subst hv
    exact stepOnward_unless hE tol descent fresh s.x hf record v' hu

theorem closed_grows_stage (P : Problem α σ n) :
    Closed P true (Session.stage P) fun _ a => Follows Grows a := closed_grows P true _

theorem grows_lineSearch (P : Problem α σ n) (x f step : Vector α n) (length tol : α) :
    Follows Grows (lineSearch P x f step length tol) :=
  (closed_grows_stage P).lineSearch (fun s => Grows.refl s) x f step length tol

theorem grows_searched (P : Problem α σ n) (tol : Tolerances α) (iteration : Nat)
    (x f : Vector α n) (record : RunRecord α) (found : Attempt α ⊕ Heading α n) :
    Follows Grows (match found with
      | .inl attempt => pure (.over attempt)
      | .inr q => searchAndMove P tol iteration q.fresh x f q.norm record q.step q.kind :
        Action α σ n (Progress α n)) := by
  cases found with
  | inl attempt => exact (closed_grows_stage P).value _
  | inr q =>
    exact (closed_grows_stage P).searchAndMove (grows_lineSearch P) tol iteration _ x f _ record _ _

theorem iterateDamped_unless (hE : E.Fits P) (tol : Tolerances α) (descent tighten : Bool)
    (iteration : Nat) {f : Vector α n} (hf : allFinite f = true) (norm : α) (record : RunRecord α)
    (h : Mirror E (Ready P E.units iteration) s s') :
    Unless E (Progressed E P) (Mirror E (Loose E.units.Scaled))
      (iterateDamped P tol descent tighten iteration f norm record s)
      (iterateDamped (E.problem P) tol descent tighten iteration (E.units.residual f) norm record
        s') := by
  rw [iterateDamped_eq, iterateDamped_eq, get_bind_apply, get_bind_apply, h.x]
  refine (heading_unless hE tol descent tighten iteration hf norm record h).bind
    (fun v v' t t' ⟨hv, ht, hkept⟩ => ?_) (grows_searched P tol iteration s.x f record)
    (grows_searched (E.problem P) tol iteration s.x (E.units.residual f) record)
  subst hv
  cases v' with
  | inl attempt => exact .inr (.inl ⟨attempt, rfl, rfl, ht⟩)
  | inr q =>
    exact ((searchAndMove_meets hE.determined tol iteration q.fresh s.x hf q.norm record q.step
      q.kind (hkept q rfl)).mono (fun _ _ _ _ hv => hv) fun _ _ hu => hu.loosened).unless

theorem grows_onward (P : Problem α σ n) (tol : Tolerances α) (descent tighten : Bool)
    (budget iteration : Nat) (progress : Progress α n) :
    Follows Grows (match progress with
      | .over attempt => pure attempt
      | .onward f norm record => loopDamped P tol descent tighten budget iteration f norm record :
        Action α σ n (Attempt α)) := by
  match progress with
  | .over _ => exact (closed_grows_stage P).value _
  | .onward f norm record =>
    exact (closed_grows_stage P).loopDamped (grows_lineSearch P) tol descent tighten budget
      iteration f norm record

/-- Attempts that come to the same. -/
def Attempted {β : Type} (E : Exchange α σ ν n) (P : Problem α σ n) (v v' : β)
    (t t' : Session α σ n) : Prop :=
  v' = v ∧ Mirror E (Geared P E.units E.units.Scaled) t t'

theorem loopDamped_unless (hE : E.Fits P) (tol : Tolerances α) (descent tighten : Bool)
    (budget iteration : Nat) {f : Vector α n} (hf : allFinite f = true) (norm : α)
    (record : RunRecord α) (h : Mirror E (Ready P E.units iteration) s s') :
    Unless E (Attempted E P) (Mirror E (Loose E.units.Scaled))
      (loopDamped P tol descent tighten budget iteration f norm record s)
      (loopDamped (E.problem P) tol descent tighten budget iteration (E.units.residual f) norm record
        s') := by
  induction budget generalizing iteration f norm record s s' with
  | zero => exact .inr ⟨rfl, h.mono fun hg => hg.imp_right And.right⟩
  | succ budget ih =>
    refine (iterateDamped_unless hE tol descent tighten iteration hf norm record h).bind
      (fun v v' t t' hv => ?_) (grows_onward P tol descent tighten budget (iteration + 1))
      (grows_onward (E.problem P) tol descent tighten budget (iteration + 1))
    obtain ⟨attempt, rfl, rfl, ht⟩ | ⟨g, norm, record, rfl, rfl, hg, ht⟩ := hv
    · exact .inr ⟨rfl, ht⟩
    · exact ih (iteration + 1) hg norm record (ht.mono .inl)

theorem runDamped_unless (hE : E.Fits P) (tol : Tolerances α) (descent : Bool)
    (h : Mirror E (Geared P E.units E.units.Scaled) s s') :
    Unless E (Attempted E P) (Mirror E (Loose E.units.Scaled)) (runDamped P tol descent s)
      (runDamped (E.problem P) tol descent s') := by
  have hcore := congrArg (fun c : Core α n =>
    { c with history := none, useSteepestDescent := false }) h.core
  have hcleared : Mirror E (Geared P E.units E.units.Scaled) s.cleared s'.cleared :=
    ⟨hcore, h.gear, h.view, h.points⟩
  have hfirst : s'.work.firstAttempt = s.work.firstAttempt := congrArg Core.firstAttempt h.core
  have hmeets := evaluate_meets hE.determined hcleared s.x
  have hoptions : (E.problem P).options = P.options := rfl
  rw [runDamped_apply, runDamped_apply, h.x, hoptions]
  obtain ⟨v, _, t, t', hleft, hright, rfl, hfinite, ht⟩ | ⟨halt, t, t', hleft, hright, ht⟩ :=
    hmeets.ends
  · rw [hleft, hright]
    cases v with
    | error mishap => exact .inr ⟨rfl, ht⟩
    | ok f =>
      have hscale : t'.work.residualScale = E.units.scales t.work.residualScale :=
        ht.gear.loose.scale
      have hnorm : scaledNorm (E.units.residual f) t'.work.residualScale =
          scaledNorm f t.work.residualScale := by rw [hscale, E.units.scaledNorm_eq]
      have hrecord : t'.blankRecord (E.units.residual f) = t.blankRecord f := by
        unfold Session.blankRecord
        rw [hnorm]
      have htighten : tightensScales P.options s'.work = tightensScales P.options s.work := by
        unfold tightensScales
        rw [hfirst]
      have hcore := congrArg (fun c : Core α n =>
        { c with lastNorm := scaledNorm f t.work.residualScale }) ht.core
      have hnormed : Mirror E (Geared P E.units E.units.Scaled) (t.normed f)
          (t'.normed (E.units.residual f)) := by
        refine ⟨Eq.trans ?_ hcore, ht.gear, ht.view, ht.points⟩
        exact congrArg (fun norm => { t'.core with lastNorm := norm }) hnorm
      dsimp only [Except.map]
      rw [hnorm, hrecord, htighten]
      split
      · exact .inr ⟨rfl, hnormed⟩
      · exact loopDamped_unless hE tol descent _ _ 1 (hfinite f rfl) _ _
          (hnormed.mono fun hg => hg.imp_right fun hstale => ⟨rfl, hstale⟩)
  · rw [hleft, hright]
    exact .inr ⟨rfl, ht.mono Geared.loose⟩

end

end AlgebraicLoop
