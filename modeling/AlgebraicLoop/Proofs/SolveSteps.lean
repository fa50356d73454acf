import AlgebraicLoop.Proofs.JacobianSteps

/-!
# Attempts, step by step

Every attempt of a solve goes by the steps of `Step`, whatever its method, and so do the way to each
of its positions and the way to where it halts.

* `tracked_computeStep`: how an iteration comes to its step;
* `Walk.steps`, `Strides.steps`: the way to the positions of an attempt;
* `tracked_attempts`, `tracked_solveOnce`: all attempts of a solve, and its close.
-/

namespace AlgebraicLoop
set_option autoImplicit false

section
variable {α σ : Type} [Scalar α] {n : Nat} {P : Problem α σ n} {o s t u : Session α σ n}

theorem Treads.read {β : Type} {f : Session α σ n → Action α σ n β} (h : Treads P o (f s) s) :
    Treads P o (get >>= f) s := (after_congr (get_bind_apply _ _)).2 h

/-! ## A step of an iteration -/

theorem Tracked.secureFactors {factor : Action α σ n Bool} (h : Tracked P o factor) :
    Tracked P o (secureFactors factor) := by
  refine .read fun s => ?_
  split
  · exact .value _
  · exact h

theorem aside_stepByFactors (P : Problem α σ n) (f : Vector α n) (stepTolerance : α)
    (usable : Bool) : Follows Aside (stepByFactors P f stepTolerance usable) := by
  have hC := closed_aside P
  refine hC.read (fun _ _ => rfl) fun s => ?_
  dsimp only
  split
  · exact hC.value _
  · split
    · exact hC.value _
    · split
      · exact hC.seq (aside_afterRecoveryStep P) fun _ => hC.value _
      · exact hC.value _

theorem tracked_computeStep (P : Problem α σ n) (o : Session α σ n) (f : Vector α n)
    (stepTolerance : α) : Tracked P o (computeStep P f stepTolerance) := by
  rw [computeStep_eq]
  exact (tracked_factorize P o).secureFactors.bind fun usable =>
    .of_aside (aside_stepByFactors P f stepTolerance usable)

theorem treads_heading {tol : Tolerances α} {descent tighten : Bool} {iteration : Nat}
    {f : Vector α n} {norm : α} {record : RunRecord α} (hs : Trail o s)
    (hf : Evaluated o s s.x f) :
    Treads P o (heading P tol descent tighten iteration f norm record) s := by
  refine .read ?_
  refine (treads_prepareJacobian hf).bind fun answer t _ hst => ?_
  cases answer with
  | error mishap => exact .refl
  | ok fresh =>
    refine Tracked.bind (.of_aside (aside_tightenedNorm P tighten iteration fresh s.x f norm))
      (fun norm => ?_) t (hs.trans hst.trail)
    refine .bind (tracked_computeStep P o f tol.step) fun found => ?_
    cases found with
    | none => exact .value _
    | some found =>
      exact .bind (.of_aside (aside_searchDirection P descent s.x f _ _)) fun _ => .value _

/-- A heading was prepared with the freshness that it has, and went on by steps from there. -/
theorem heading_prepared {tol : Tolerances α} {descent tighten : Bool} {iteration : Nat}
    {f : Vector α n} {norm : α} {record : RunRecord α} {q : Heading α n}
    (h : heading P tol descent tighten iteration f norm record s = .ok (.inr q) t) :
    ∃ u, prepareJacobian P iteration s.x f s = .ok (.ok q.fresh) u ∧ Steps P u u t := by
  obtain ⟨u, v, w, step, kind, hu, hv, hw, ht⟩ := heading_eq_ok h
  have huv : Aside u v := (aside_tightenedNorm P tighten iteration q.fresh s.x f _).ok hv
  have hvw : Steps P u v w := (tracked_computeStep P u f tol.step v huv.trail).ok hw
  have hwt : Aside w t := (aside_searchDirection P descent s.x f step kind).ok ht
  exact ⟨u, hu, ((Steps.of_aside huv).trans hvw).trans (Steps.of_aside hwt)⟩

theorem heading_gaveUp {tol : Tolerances α} {descent tighten : Bool} {iteration : Nat}
    {f : Vector α n} {norm : α} {record : RunRecord α} {attempt : Attempt α}
    (h : heading P tol descent tighten iteration f norm record s = .ok (.inl attempt) t) :
    attempt.record = record := by
  obtain rfl | rfl := heading_stopped h
  · rfl
  · rfl

theorem aside_searchAndMove (P : Problem α σ n) (tol : Tolerances α) (iteration : Nat)
    (fresh : Bool) (x f : Vector α n) (norm : α) (record : RunRecord α) (step : Vector α n)
    (kind : StepKind) :
    Follows Aside (searchAndMove P tol iteration fresh x f norm record step kind) := by
  have hC := closed_aside P
  have change : ∀ {g : Session α σ n → Session α σ n}, (∀ s, Aside s (g s)) →
      Follows Aside (modify g : Action α σ n Unit) := fun h s => h s
  refine hC.seq (change fun s => .of_change rfl rfl rfl rfl rfl) fun _ => ?_
  refine hC.read (fun _ _ => rfl) fun s => ?_
  refine hC.seq (aside_lineSearch P x f step _ _) fun answer => ?_
  cases answer with
  | error reason =>
    dsimp only
    split
    · exact hC.seq (change fun s => .pressed s) fun _ => hC.value _
    · split
      · exact hC.value _
      · exact hC.value _
  | ok accepted =>
    -- The point moves, and the mark that the Jacobian was evaluated at it is taken off.
    refine hC.seq (change fun s => .moved rfl rfl rfl rfl rfl) fun _ => ?_
    refine hC.read (fun _ _ => rfl) fun t => ?_
    dsimp only
    split
    · exact hC.value _
    · exact hC.value _

theorem treads_iterateDamped {tol : Tolerances α} {descent tighten : Bool} {iteration : Nat}
    {f : Vector α n} {norm : α} {record : RunRecord α} (hs : Trail o s)
    (hf : Evaluated o s s.x f) :
    Treads P o (iterateDamped P tol descent tighten iteration f norm record) s := by
  rw [iterateDamped_eq]
  refine .read ?_
  refine (treads_heading hs hf).bind fun found t _ hst => ?_
  cases found with
  | inl attempt => exact .refl
  | inr h => exact .of_aside (aside_searchAndMove P tol iteration h.fresh s.x f h.norm record _ _) t

/-! ## Attempts of the damped method -/

theorem aside_cleared (s : Session α σ n) : Aside s s.cleared := .of_change rfl rfl rfl rfl rfl

theorem Walk.steps {tol : Tolerances α} {descent : Bool} {k : Nat} {path : List (Waypoint α n)}
    {progress : Progress α n} (hs : Trail o s) (h : Walk P tol descent s k path progress u) :
    Steps P o s u := by
  have started : ∀ {answer : Except Mishap (Vector α n)} {t : Session α σ n},
      evaluate P s.x s.cleared = .ok answer t → Aside s t := fun hf =>
    (aside_cleared s).trans ((aside_evaluate P s.x).ok hf)
  have faced : ∀ {k : Nat} {path : List (Waypoint α n)} {f : Vector α n} {norm : α}
      {record : RunRecord α} {u v : Session α σ n} {found : Attempt α ⊕ Heading α n},
      Walk P tol descent s k path (.onward f norm record) u → Steps P o s u →
      heading P tol descent (tightensScales P.options s.work) (k + 1) f norm record u =
        .ok found v → Steps P o s v := by
    intro k path f norm record u v found hwalk hsu hheading
    have hf : Evaluated o u u.x f := hwalk.evaluated.earlier hs.calls hsu.trail.calls
    exact hsu.trans ((treads_heading (hs.trans hsu.trail) hf).ok hheading)
  induction h with
  | undefined hf => exact .of_aside (started hf)
  | solved hf _ => exact .of_aside ((started hf).trans (.of_change rfl rfl rfl rfl rfl))
  | start hf _ => exact .of_aside ((started hf).trans (.of_change rfl rfl rfl rfl rfl))
  | exhausted _ _ ih => exact ih
  | gaveUp hwalk _ hheading ih => exact faced hwalk ih hheading
  | stays hwalk _ hheading _ hmove ih =>
    exact (faced hwalk ih hheading).trans (Steps.of_aside ((aside_searchAndMove P ..).ok hmove))
  | moves hwalk _ hheading _ hmove ih =>
    exact (faced hwalk ih hheading).trans (Steps.of_aside ((aside_searchAndMove P ..).ok hmove))

theorem tracked_runDamped (P : Problem α σ n) (o : Session α σ n) (tol : Tolerances α)
    (descent : Bool) : Tracked P o (runDamped P tol descent) := by
  intro s hs
  refine (runDamped_after P tol descent s).mono (fun attempt t _ ⟨_, _, h⟩ => h.steps hs) ?_
  rintro halt t - (hf | ⟨k, path, f, norm, record, v, hwalk, _, hrun⟩)
  · exact (Steps.of_aside ((aside_cleared s).trans ((aside_evaluate P s.x).error hf))).halted
  · have hsv : Steps P o s v := hwalk.steps hs
    have hf : Evaluated o v v.x f := hwalk.evaluated.earlier hs.calls hsv.trail.calls
    exact ((treads_iterateDamped (hs.trans hsv.trail) hf).error hrun).of_steps hsv

theorem aside_refineAttempt (P : Problem α σ n) (attempt : Attempt α) :
    Follows Aside (refineAttempt P attempt) := by
  have hC := closed_aside P
  have hbracket : BracketRead fun β (a : Action α σ n β) => Follows Aside a := fun _ hf s => hf s s
  unfold refineAttempt
  split
  · split
    · next h =>
      refine hbracket (fun s t hst => by rw [hst]) fun s => ?_
      dsimp only
      split
      · split
        · exact hC.seq (hC.notice _) fun _ => hC.value _
        · exact hC.value _
      · refine hC.seq (hC.findRoot h _ _ _) fun answer => ?_
        cases answer with
        | error mishap => exact hC.value _
        | ok found =>
          dsimp only
          split
          · refine hC.seq (hC.seq (fun s => ?_) fun _ => hC.notice _) fun _ => ?_
            · exact Aside.moved rfl rfl rfl rfl rfl
            · exact hC.read (fun _ _ => rfl) fun t => hC.value _
          · exact hC.value _
    · exact hC.value _
  · exact hC.value _

/-! ## Residual scales -/

/-- Scales are computed from a fresh Jacobian by the damped method only. -/
theorem treads_freshRowScales (hmethod : P.options.method = .damped) (hs : Trail o s) :
    Treads P o (freshRowScales P s.x) s := by
  unfold freshRowScales
  refine (Treads.of_aside (aside_evaluate P s.x) s).bind fun answer t ht hst => ?_
  cases answer with
  | error mishap => exact .refl
  | ok f =>
    obtain ⟨hx, hf⟩ := evaluated_here hs ht
    have hjacobian : Treads P o (evaluateJacobian P s.x f) t := by
      rw [← hx]
      exact treads_evaluateJacobian (fun h => absurd hmethod h) hf
    refine hjacobian.bind fun status v _ _ => ?_
    cases status with
    | error mishap => exact .refl
    | ok _ => exact .refl

theorem tracked_rawScales (hmethod : P.options.method = .damped) (o : Session α σ n) :
    Tracked P o (rawScales P) := by
  have nominals : ∀ automatic : Option (Vector α n), Tracked P o
      (if P.options.residualScaling = .manual ∨ P.options.residualScaling = .hybrid then
        withNominals P automatic
      else pure automatic) := by
    intro automatic
    split
    · refine .read fun s => ?_
      split
      · exact .value _
      · exact .value _
    · exact .value _
  intro s hs
  refine .read ?_
  dsimp only
  split
  · exact (treads_freshRowScales hmethod hs).bind fun automatic t _ hst =>
      nominals automatic t (hs.trans hst.trail)
  · exact nominals _ s hs

/-- A check of the condition does no more than give notice, or marks the Jacobian in the end. -/
theorem checkCondition_cases (P : Problem α σ n) (s : Session α σ n) :
    ∃ t, Aside s t ∧ (checkCondition P s = .ok () t ∨
      t.Doubtful P ∧ checkCondition P s = .ok () t.marked) := by
  have notified : ∀ (notice : Notice α) (t : Session α σ n),
      Aside t { t with notices := t.notices.push notice } := fun _ _ =>
    .of_change rfl rfl rfl rfl rfl
  unfold checkCondition
  rw [get_bind_apply]
  dsimp only
  split
  · next hchecked =>
    have hcurrent : s.work.flags.jacobianCurrent = true := (Bool.and_eq_true_iff.1 hchecked).2
    have doubtful : ∀ {t : Session α σ n}, t.work = s.work →
        (s.work.flags.poorlyScaled && !s.work.flags.singular && decide (scaledCondition
          s.work.jacobian s.work.residualScale s.work.variableScale >
            P.options.conditionLimit)) = true → t.Doubtful P := by
      intro t ht h
      obtain ⟨hflags, hexceeds⟩ := Bool.and_eq_true_iff.1 h
      obtain ⟨hpoorly, hregular⟩ := Bool.and_eq_true_iff.1 hflags
      refine ⟨?_, ?_, ?_, ?_⟩
      all_goals rw [ht]
      · exact hpoorly
      · simpa using hregular
      · exact hcurrent
      · exact of_decide_eq_true hexceeds
    split
    · rw [notify_bind_apply]
      have hnoted := notified (.condition (scaledCondition s.work.jacobian s.work.residualScale
        s.work.variableScale)) s
      split
      · next h => exact ⟨_, hnoted.trans (notified _ _), .inr ⟨doubtful rfl h, rfl⟩⟩
      · exact ⟨_, hnoted, .inl rfl⟩
    · split
      · next h => exact ⟨_, notified _ _, .inr ⟨doubtful rfl h, rfl⟩⟩
      · exact ⟨s, .refl s, .inl rfl⟩
  · exact ⟨s, .refl s, .inl rfl⟩

/-- The check at the end of an update of the residual scales goes by steps. -/
theorem treads_checkCondition {q : Session α σ n} (hmethod : P.options.method = .damped)
    (hq : updateResidualScales P q = checkCondition P s) : Treads P o (checkCondition P) s := by
  obtain ⟨t, hst, ht | ⟨hdoubtful, ht⟩⟩ := checkCondition_cases P s
  all_goals
    unfold Treads After
    rw [ht]
  · exact .of_aside hst
  · exact (Steps.of_aside hst).tail (.unfactored hmethod hdoubtful (hq.trans ht))

theorem tracked_updateResidualScales (hmethod : P.options.method = .damped) (o : Session α σ n) :
    Tracked P o (updateResidualScales P) := by
  intro s hs
  have hstart : Tracked P o (modifyWork fun w : Workspace α n =>
      { w with flags.forceRescaling := false } : Action α σ n Unit) :=
    .work fun s => .of_change rfl rfl rfl rfl rfl
  refine (hstart s hs).bind fun _ t ht hst => ?_
  dsimp only
  split
  · exact Steps.of_aside (.of_change rfl rfl rfl rfl rfl)
  · next hscaling =>
    refine (tracked_rawScales hmethod o t (hs.trans (Steps.trail hst))).bind fun raw u hu hsu => ?_
    cases raw with
    | none => exact .refl
    | some raw =>
      have hclear : Follows Aside (modifyWork fun w : Workspace α n =>
          { w with flags.poorlyScaled := false } : Action α σ n Unit) := fun s =>
        .of_change rfl rfl rfl rfl rfl
      refine (Treads.of_aside hclear u).bind fun _ v hv _ => ?_
      refine (Treads.of_aside ((closed_aside P).storeScales raw) v).bind fun _ w hw _ => ?_
      refine treads_checkCondition (q := s) hmethod ?_
      unfold updateResidualScales
      rw [bind_ok ht, if_neg hscaling, bind_ok hu]
      dsimp only
      rw [bind_ok hv, bind_ok hw]

/-! ## All attempts of a damped solve -/

theorem tracked_firstAttempt (P : Problem α σ n) (o : Session α σ n) :
    Tracked P o (firstAttempt P) := by
  refine .bind (.work fun s => .of_change rfl rfl rfl rfl rfl) fun _ => ?_
  refine .bind (tracked_runDamped P o _ false) fun attempt => ?_
  refine .bind (.work fun s => .of_change rfl rfl rfl rfl rfl) fun _ => ?_
  exact .bind (.of_aside (aside_refineAttempt P attempt)) fun _ => .value _

theorem tracked_tryDescent (P : Problem α σ n) (o : Session α σ n) (standing : Standing α) :
    Tracked P o (tryDescent P standing) := by
  unfold tryDescent
  split
  · exact .bind (.notify _) fun _ => .bind (tracked_runDamped P o _ true) fun _ => .value _
  · exact .value _

theorem tracked_rescaledRetry (hmethod : P.options.method = .damped) (o : Session α σ n) :
    Tracked P o (rescaledRetry P) := by
  refine .bind (tracked_updateResidualScales hmethod o) fun _ => ?_
  refine .bind (.work fun s => .of_change rfl rfl rfl rfl rfl) fun _ => ?_
  refine .bind (tracked_runDamped P o _ false) fun retry => ?_
  exact .bind (.work fun s => .of_change rfl rfl rfl rfl rfl) fun _ => .value _

theorem tracked_concludeRetry (P : Problem α σ n) (o : Session α σ n) (standing : Standing α)
    (retry : Attempt α) : Tracked P o (concludeRetry P standing retry) := by
  unfold concludeRetry
  split
  · refine .bind (.change fun s => ?_) fun _ => .value _
    exact (Aside.pressed s).trans (.of_change rfl rfl rfl rfl rfl)
  · exact .value _

theorem tracked_tryRescaled (hmethod : P.options.method = .damped) (o : Session α σ n)
    (first : Bool) (standing : Standing α) : Tracked P o (tryRescaled P first standing) := by
  rw [tryRescaled_parts]
  split
  · refine .bind (.of_aside ((closed_aside P).announceRetry standing)) fun _ => ?_
    exact .bind (tracked_rescaledRetry hmethod o) (tracked_concludeRetry P o standing)
  · exact .value _

/-- The point moves to the nominal values, and the mark on the Jacobian is taken off. -/
theorem aside_restart (P : Problem α σ n) : Follows Aside (restartFromNominal P >>= fun _ =>
    modifyWork fun w => { w with jacobianAtPoint := false }) := by
  intro s
  rw [after_bind]
  exact after_restartFromNominal (fun _ _ => Aside.moved rfl rfl rfl rfl rfl) fun _ => Aside.refl s

theorem tracked_tryNominal (P : Problem α σ n) (o : Session α σ n) (standing : Standing α) :
    Tracked P o (tryNominal P standing) := by
  unfold tryNominal
  split
  · rw [← bind_assoc]
    refine .bind (.of_aside (aside_restart P)) fun _ => ?_
    exact .bind (.notify _) fun _ => .bind (tracked_runDamped P o _ false) fun _ => .value _
  · exact .value _

theorem aside_writeBack (P : Problem α σ n) : Follows Aside (writeBack P) :=
  follows_writeBack fun _ => .of_stock (Course.of_call rfl rfl rfl) rfl rfl rfl

theorem tracked_closeSolve (P : Problem α σ n) (o : Session α σ n) (standing : Standing α) :
    Tracked P o (closeSolve P standing) := by
  refine .bind (.of_aside (aside_writeBack P)) fun _ => ?_
  split
  · have hphase : Tracked P o (modify fun s => { s with phase := .converged }) :=
      .change fun s => .of_change rfl rfl rfl rfl rfl
    exact hphase.bind fun _ => .read fun _ => .value _
  · refine .bind (.change fun s => ?_) fun _ => .bind (.notify _) fun _ => fun s _ => ?_
    · exact (Aside.pressed s).trans (.of_change rfl rfl rfl rfl rfl)
    · exact Steps.halted .refl

theorem tracked_attempts (hmethod : P.options.method = .damped) (o : Session α σ n)
    (first : Bool) : Tracked P o (afterOpening P first) := by
  refine .bind (tracked_firstAttempt P o) fun standing => ?_
  refine .bind (tracked_tryDescent P o standing) fun standing => ?_
  refine .bind (tracked_tryRescaled hmethod o first standing) fun standing => ?_
  exact .bind (tracked_tryNominal P o standing) fun standing => tracked_closeSolve P o standing

/-! ## Methods without line search -/

theorem aside_moveFully (x f y g : Vector α n) (iteration : Nat) (kind : StepKind) (fresh : Bool)
    (record : RunRecord α) :
    Follows Aside (moveFully x f y g iteration kind fresh record : Action α σ n (RunRecord α)) :=
  fun _ => Aside.moved rfl rfl rfl rfl rfl

theorem treads_iterateUndamped {tol : Tolerances α} {iteration : Nat} {f : Vector α n}
    {record : RunRecord α} (hs : Trail o s) (hf : Evaluated o s s.x f) :
    Treads P o (iterateUndamped P tol iteration f record) s := by
  refine .read ?_
  refine (treads_prepareJacobian hf).bind fun answer t _ hst => ?_
  cases answer with
  | error mishap => exact .refl
  | ok fresh =>
    refine (tracked_computeStep P o f tol.step t (hs.trans hst.trail)).bind fun found u _ _ => ?_
    cases found with
    | none => exact .refl
    | some found =>
      refine .read ?_
      refine (Treads.of_aside (aside_evaluate P _) u).bind fun answer v _ _ => ?_
      cases answer with
      | error mishap => exact .refl
      | ok g =>
        refine (Treads.of_aside (aside_moveFully s.x f _ g iteration found.2 fresh record) v).bind
          fun record w _ _ => ?_
        split
        · exact .refl
        · exact .refl

theorem Strides.steps {tol : Tolerances α} {k : Nat}
    {progress : Attempt α ⊕ Vector α n × RunRecord α} (hs : Trail o s)
    (h : Strides P tol s k progress u) : Steps P o s u := by
  induction h with
  | undefined hf => exact .of_aside ((aside_evaluate P s.x).ok hf)
  | solved hf _ => exact .of_aside ((aside_evaluate P s.x).ok hf)
  | start hf _ => exact .of_aside ((aside_evaluate P s.x).ok hf)
  | exhausted _ _ ih => exact ih
  | @next k f record u v progress hstrides _ hrun ih =>
    have hf : Evaluated o u u.x f := hstrides.evaluated.2.earlier hs.calls ih.trail.calls
    exact ih.trans ((treads_iterateUndamped (hs.trans ih.trail) hf).ok hrun)

theorem tracked_runUndamped (P : Problem α σ n) (o : Session α σ n) (tol : Tolerances α) :
    Tracked P o (runUndamped P tol) := by
  intro s hs
  refine (runUndamped_after P tol s).mono (fun attempt t _ ⟨_, h⟩ => h.steps hs) ?_
  rintro halt t - (hf | ⟨k, f, record, v, hstrides, _, hrun⟩)
  · exact (Steps.of_aside ((aside_evaluate P s.x).error hf)).halted
  · have hsv : Steps P o s v := hstrides.steps hs
    have hf : Evaluated o v v.x f := hstrides.evaluated.2.earlier hs.calls hsv.trail.calls
    exact ((treads_iterateUndamped (hs.trans hsv.trail) hf).error hrun).of_steps hsv

theorem aside_moveDirectly (P : Problem α σ n) (tol : Tolerances α) (x : Vector α n)
    (initialNorm : α) (step : Vector α n) (kind : StepKind) :
    Follows Aside (moveDirectly P tol x initialNorm step kind) := by
  have hC := closed_aside P
  refine Follows.bind (fun _ _ _ hst htu => hst.trans htu) (fun s => Aside.refl s) fun s => ?_
  refine hC.seq (aside_evaluate P _) fun answer => ?_
  cases answer with
  | error mishap => exact hC.value _
  | ok g =>
    refine hC.seq (fun s => ?_) fun _ => hC.read (fun _ _ => rfl) fun t => hC.value _
    exact Aside.moved rfl rfl rfl rfl rfl

theorem aside_stepDirectly (P : Problem α σ n) (tol : Tolerances α) (x f : Vector α n) (norm : α)
    (usable : Bool) : Follows Aside (stepDirectly P tol x f norm usable) := by
  have hC := closed_aside P
  refine hC.read (fun _ _ => rfl) fun s => ?_
  dsimp only
  split
  · exact hC.value _
  · exact aside_moveDirectly P tol x _ _ _

theorem tracked_runDirect (hmethod : P.options.method = .direct) (o : Session α σ n)
    (tol : Tolerances α) : Tracked P o (runDirect P tol) := by
  intro s hs
  rw [runDirect_eq]
  refine .read ?_
  refine (Treads.of_aside (aside_evaluate P s.x) s).bind fun answer t ht hst => ?_
  cases answer with
  | error mishap => exact .refl
  | ok f =>
    obtain ⟨hx, hf⟩ := evaluated_here hs ht
    have hprepare : Treads P o (prepareJacobian P 1 s.x f) t := by
      rw [← hx]
      exact treads_prepareJacobian hf
    refine .read (hprepare.bind fun status u _ htu => ?_)
    cases status with
    | error mishap => exact .refl
    | ok _ =>
      have hsecure := (tracked_factorDirect hmethod o).secureFactors
      have hstep : ∀ usable, Tracked P o
          (stepDirectly P tol s.x f (scaledNorm f t.work.residualScale) usable) := fun usable =>
        .of_aside (aside_stepDirectly P tol s.x f _ usable)
      exact hsecure.bind hstep u (hs.trans (hst.trail.trans htu.trail))

theorem aside_setUp (P : Problem α σ n) : Follows Aside (setUp P) := fun s =>
  after_setUp (fun _ => Aside.refl s) fun _ => Aside.of_change rfl rfl rfl rfl rfl

theorem tracked_solveOnce (o : Session α σ n)
    {run : Problem α σ n → Tolerances α → Action α σ n (Attempt α)}
    (hrun : ∀ tol, Tracked P o (run P tol)) : Tracked P o (solveOnce P run) := by
  refine .bind (.bind (.of_aside (aside_setUp P)) fun _ => .value _) fun _ => ?_
  have hphase : Tracked P o (modify fun s => { s with phase := .iterating }) :=
    .change fun s => .of_change rfl rfl rfl rfl rfl
  exact hphase.bind fun _ => .bind (hrun _) fun attempt => tracked_closeSolve P o _

end

end AlgebraicLoop
