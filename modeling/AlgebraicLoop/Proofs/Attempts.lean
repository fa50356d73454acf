import AlgebraicLoop.Proofs.Laws
import AlgebraicLoop.Proofs.Traversal

/-!
# Properties of whole attempts

What is closed holds of every attempt of a solve. The search along a step and the restart from the
nominal values may halt in a way of their own, and the refinement reads the bracket; these are asked
for separately.

* `Closed.runDamped`, `Closed.refineAttempt`: an attempt of the damped method and its refinement;
* `Closed.firstAttempt`, `Closed.tryDescent`, `Closed.tryRescaled`, `Closed.tryNominal`: the attempts
  of a solve one by one;
* `Closed.runUndamped`, `Closed.runDirect`: the attempts of the methods without line search.
-/

namespace AlgebraicLoop
set_option autoImplicit false

theorem StepKind.phase_running (kind : StepKind) : kind.phase.Running := by
  cases kind <;> trivial

section
variable {α σ : Type} [Scalar α] {n : Nat}

/-- The property holds of what depends on the bracket, if it holds of that for every bracket. No
attempt reads the bracket, but the refinement that follows the first one does. -/
def BracketRead (C : (β : Type) → Action α σ n β → Prop) : Prop :=
  ∀ {β : Type} {f : Session α σ n → Action α σ n β},
    (∀ s t, s.bracket = t.bracket → f s = f t) → (∀ s, C β (f s)) → C β (get >>= f)

namespace Closed
variable {γ : Type} {P : Problem α σ n} {past : Bool} {keep : Session α σ n → γ}
  {C : (β : Type) → Action α σ n β → Prop}

/-! ## The damped attempt -/

theorem backtrack (hC : Closed P past keep C)
    (hthrow : C (Except FailureReason (Accepted α n)) (throw .limitsOutOfOrder))
    (x step scale : Vector α n) (start slope leastDamping : α) (budget : Nat) (damping : α) :
    C _ (backtrack P x step scale start slope leastDamping budget damping) := by
  induction budget generalizing damping with
  | zero => exact hC.value _
  | succ budget ih =>
    unfold AlgebraicLoop.backtrack
    split
    · exact hC.value _
    · refine hC.seq (hC.residual _) fun answer => ?_
      cases answer with
      | error _ => exact ih _
      | ok g =>
        dsimp only
        split
        · exact hC.value _
        · split
          · exact ih _
          · exact hthrow

theorem lineSearch (hC : Closed P past keep C)
    (hthrow : C (Except FailureReason (Accepted α n)) (throw .limitsOutOfOrder))
    (x f step : Vector α n) (length stepTolerance : α) :
    C _ (lineSearch P x f step length stepTolerance) := by
  refine hC.read (fun _ _ => rfl) fun s => ?_
  dsimp only
  split
  · exact hC.value _
  · exact hC.backtrack hthrow x step _ _ _ _ _ _

/-- With lawful numbers the limits of a search are always in order, since its damping is never
negative. -/
theorem backtrack_of_lawful [LawfulScalar α] (hC : Closed P past keep C) (x step scale : Vector α n)
    (start slope leastDamping : α) (hslope : slope < 0 → isFinite slope = true) (budget : Nat)
    (damping : α) (hd : 0 ≤ damping) :
    C _ (AlgebraicLoop.backtrack P x step scale start slope leastDamping budget damping) := by
  induction budget generalizing damping with
  | zero => exact hC.value _
  | succ budget ih =>
    unfold AlgebraicLoop.backtrack
    split
    · exact hC.value _
    · refine hC.seq (hC.residual _) fun answer => ?_
      cases answer with
      | error _ => exact ih _ (LawfulScalar.half_nonneg damping hd)
      | ok g =>
        dsimp only
        split
        · exact hC.value _
        · obtain ⟨next, hnext, hnonneg⟩ :
              ∃ next, shorten? start (merit g scale) slope damping = some next ∧ 0 ≤ next :=
            LawfulScalar.shorten?_isSome hslope hd
          rw [hnext]
          exact ih next hnonneg

theorem lineSearch_of_lawful [LawfulScalar α] (hC : Closed P past keep C)
    (x f step : Vector α n) (length stepTolerance : α) :
    C _ (AlgebraicLoop.lineSearch P x f step length stepTolerance) := by
  refine hC.read (fun _ _ => rfl) fun s => ?_
  dsimp only
  split
  · exact hC.value _
  · exact hC.backtrack_of_lawful x step _ _ _ _ (LawfulScalar.downhillSlope_finite _ _ _ _) _ _
      LawfulScalar.zero_le_one

theorem moveTo (hC : Closed P past (Session.stage P) C) (x f : Vector α n)
    (a : Accepted α n) : C _ (moveTo x f a) := by
  refine hC.update ⟨fun _ => rfl, fun s m => ?_, fun _ => rfl, fun _ => ⟨.inl rfl, id⟩,
    fun _ _ => .inl rfl⟩
  simp only [Session.shown, Session.veiled, Session.outdated, Bool.and_self_left, Box.blank_blank]

theorem searchAndMove (hC : Closed P past (Session.stage P) C)
    (hsearch : ∀ x f step length tol, C _ (AlgebraicLoop.lineSearch P x f step length tol))
    (tol : Tolerances α) (iteration : Nat) (fresh : Bool) (x f : Vector α n) (norm : α)
    (record : RunRecord α) (step : Vector α n) (kind : StepKind) :
    C _ (searchAndMove P tol iteration fresh x f norm record step kind) := by
  refine hC.seq (hC.enter kind.phase_running fun _ => rfl) fun _ => ?_
  refine hC.read (fun _ _ => rfl) fun s => ?_
  refine hC.seq (hsearch x f step _ _) fun answer => ?_
  cases answer with
  | error reason =>
    dsimp only
    split
    · refine hC.seq (hC.work (fun _ => ⟨rfl, rfl, rfl, rfl⟩) (fun _ _ _ => rfl) fun _ => rfl) fun _ => ?_
      exact hC.value _
    · split
      · exact hC.value _
      · exact hC.value _
  | ok accepted =>
    refine hC.seq (hC.moveTo x f accepted) fun _ => ?_
    refine hC.read (fun _ _ => rfl) fun t => ?_
    dsimp only
    split
    · exact hC.value _
    · exact hC.value _

theorem tightenedNorm (hC : Closed P true (Session.hold P) C) (tighten : Bool) (iteration : Nat)
    (fresh : Bool) (x f : Vector α n) (norm : α) :
    C _ (tightenedNorm P tighten iteration fresh x f norm) := by
  unfold AlgebraicLoop.tightenedNorm
  split
  · refine hC.seq (hC.tightenResidualScales x) fun _ => ?_
    exact hC.read (fun _ _ => rfl) fun t => hC.value _
  · exact hC.value _

theorem heading (hC : Closed P true (Session.spot P) C) (tol : Tolerances α)
    (descent tighten : Bool) (iteration : Nat) (f : Vector α n) (norm : α) (record : RunRecord α) :
    C _ (heading P tol descent tighten iteration f norm record) := by
  refine hC.read (fun _ _ => rfl) fun s => ?_
  refine hC.seq (hC.footing.prepareJacobian iteration s.x f) fun answer => ?_
  cases answer with
  | error _ => exact hC.value _
  | ok fresh =>
    refine hC.seq (hC.hold.tightenedNorm tighten iteration fresh s.x f norm) fun norm => ?_
    refine hC.seq (hC.footing.computeStep f _) fun found => ?_
    cases found with
    | none => exact hC.value _
    | some found =>
      refine hC.seq (hC.footing.ground.grip.searchDirection descent s.x f _ _) fun chosen => ?_
      exact hC.value _

theorem iterateDamped (hC : Closed P true (Session.stage P) C)
    (hsearch : ∀ x f step length tol, C _ (AlgebraicLoop.lineSearch P x f step length tol))
    (tol : Tolerances α) (descent tighten : Bool) (iteration : Nat) (f : Vector α n) (norm : α)
    (record : RunRecord α) :
    C _ (iterateDamped P tol descent tighten iteration f norm record) := by
  rw [iterateDamped_eq]
  refine hC.read (fun _ _ => rfl) fun s => ?_
  refine hC.seq (hC.spot.heading tol descent tighten iteration f norm record) fun chosen => ?_
  cases chosen with
  | inl attempt => exact hC.value _
  | inr h => exact hC.searchAndMove hsearch tol iteration h.fresh s.x f h.norm record h.step h.kind

theorem loopDamped (hC : Closed P true (Session.stage P) C)
    (hsearch : ∀ x f step length tol, C _ (AlgebraicLoop.lineSearch P x f step length tol))
    (tol : Tolerances α) (descent tighten : Bool) (budget iteration : Nat) (f : Vector α n)
    (norm : α) (record : RunRecord α) :
    C _ (loopDamped P tol descent tighten budget iteration f norm record) := by
  induction budget generalizing iteration f norm record with
  | zero => exact hC.value _
  | succ budget ih =>
    refine hC.seq (hC.iterateDamped hsearch tol descent tighten iteration f norm record)
      fun progress => ?_
    match progress with
    | .over _ => exact hC.value _
    | .onward f norm record => exact ih _ f norm record

theorem runDamped (hC : Closed P true (Session.stage P) C)
    (hsearch : ∀ x f step length tol, C _ (AlgebraicLoop.lineSearch P x f step length tol))
    (tol : Tolerances α) (descent : Bool) : C _ (runDamped P tol descent) := by
  refine hC.seq (hC.update ⟨fun _ => rfl, fun s m => ?_, fun _ => rfl, fun _ => ⟨.inl rfl, id⟩,
    fun _ _ => .inl rfl⟩) fun _ => ?_
  · simp only [Session.shown, Session.veiled, Session.outdated, Bool.and_self_left, Box.blank_blank,
      recalled_none]
  refine hC.read (fun _ _ => rfl) fun s => ?_
  refine hC.seq (hC.residual s.x) fun answer => ?_
  cases answer with
  | error _ => exact hC.value _
  | ok f =>
    refine hC.read (fun _ _ => rfl) fun t => ?_
    refine hC.seq (hC.work (fun _ => ⟨rfl, rfl, rfl, rfl⟩) (fun _ _ _ => rfl) fun _ => rfl) fun _ => ?_
    dsimp only
    split
    · exact hC.value _
    · refine hC.read (fun _ _ => rfl) fun u => ?_
      exact hC.loopDamped hsearch tol descent _ _ _ f _ _

/-! ## Refinement and retries -/

theorem rootSearch (hC : Closed P past keep C) (h : n = 1) (xtol : α) (budget done : Nat)
    (search : RootSearch α) :
    C _ (RootSearch.run (evaluateSingle P h) xtol budget done search).run := by
  induction budget generalizing done search with
  | zero => exact hC.value _
  | succ budget ih =>
    unfold RootSearch.run
    dsimp only
    split
    · exact hC.value _
    · rw [ExceptT.run_bind]
      refine hC.seq (hC.seq (hC.residual _) fun answer => hC.value _) fun answer => ?_
      cases answer with
      | ok value => exact ih _ _
      | error mishap => exact hC.value _

theorem findRoot (hC : Closed P past keep C) (h : n = 1) (a b : Sample α) (xtol : α) :
    C _ (findRoot (evaluateSingle P h) a b xtol).run := by
  unfold AlgebraicLoop.findRoot
  split
  · exact hC.value _
  · exact hC.rootSearch h _ _ _ _

theorem refineAttempt (hC : Closed P past (Session.stage P) C) (hbracket : BracketRead C)
    (attempt : Attempt α) : C _ (refineAttempt P attempt) := by
  unfold AlgebraicLoop.refineAttempt
  split
  · split
    · next h =>
      refine hbracket (fun s t hst => by rw [hst]) fun s => ?_
      dsimp only
      split
      · split
        · exact hC.seq (hC.notice _) fun _ => hC.value _
        · exact hC.value _
      · refine hC.seq (hC.findRoot h _ _ _) fun answer => ?_
        cases answer with
        | error mishap => exact hC.value _
        | ok found =>
          dsimp only
          split
          · refine hC.seq (hC.seq (hC.update (tame (fun _ => rfl) (fun _ => ⟨rfl, rfl, rfl, rfl⟩)
              (fun _ _ _ _ _ => rfl) (fun _ => rfl) (fun _ => ⟨.inl rfl, id⟩) fun _ _ => .inl rfl))
              fun _ => hC.notice _) fun _ => ?_
            exact hC.read (fun _ _ => rfl) fun t => hC.value _
          · exact hC.value _
    · exact hC.value _
  · exact hC.value _

theorem firstAttempt (hC : Closed P true (Session.setting P) C) (hbracket : BracketRead C)
    (hsearch : ∀ x f step length tol, C _ (AlgebraicLoop.lineSearch P x f step length tol)) :
    C _ (firstAttempt P) := by
  refine hC.seq (hC.work (fun _ => ⟨rfl, rfl, rfl, rfl⟩) (fun _ _ _ => rfl) fun _ => rfl) fun _ => ?_
  refine hC.seq (hC.stage.runDamped hsearch _ false) fun attempt => ?_
  refine hC.seq (hC.work (fun _ => ⟨rfl, rfl, rfl, rfl⟩) (fun _ _ _ => rfl) fun _ => rfl) fun _ => ?_
  exact hC.seq (hC.stage.refineAttempt hbracket attempt) fun _ => hC.value _

theorem tryDescent (hC : Closed P true (Session.stage P) C)
    (hsearch : ∀ x f step length tol, C _ (AlgebraicLoop.lineSearch P x f step length tol))
    (s : Standing α) : C _ (tryDescent P s) := by
  unfold AlgebraicLoop.tryDescent
  split
  · refine hC.seq (hC.notice _) fun _ => ?_
    exact hC.seq (hC.runDamped hsearch _ true) fun _ => hC.value _
  · exact hC.value _

theorem announceRetry (hC : Closed P past keep C) (standing : Standing α) :
    C _ (announceRetry standing) := by
  unfold AlgebraicLoop.announceRetry
  split
  · exact hC.seq (hC.notice _) fun _ => hC.notice _
  · exact hC.notice _

theorem rescaledRetry (hC : Closed P true (Session.setting P) C)
    (hsearch : ∀ x f step length tol, C _ (AlgebraicLoop.lineSearch P x f step length tol)) :
    C _ (rescaledRetry P) := by
  refine hC.seq hC.stage.spot.updateResidualScales fun _ => ?_
  refine hC.seq (hC.work (fun _ => ⟨rfl, rfl, rfl, rfl⟩) (fun _ _ _ => rfl) fun _ => rfl) fun _ => ?_
  refine hC.seq (hC.stage.runDamped hsearch _ false) fun retry => ?_
  refine hC.seq (hC.work (fun _ => ⟨rfl, rfl, rfl, rfl⟩) (fun _ _ _ => rfl) fun _ => rfl) fun _ => ?_
  exact hC.value _

theorem concludeRetry (hC : Closed P true (Session.setting P) C) (standing : Standing α)
    (retry : Attempt α) : C _ (concludeRetry P standing retry) := by
  unfold AlgebraicLoop.concludeRetry
  split
  · refine hC.seq (hC.work (fun _ => ⟨rfl, rfl, rfl, rfl⟩) (fun _ _ _ => rfl) fun _ => rfl) fun _ => ?_
    exact hC.value _
  · exact hC.value _

theorem tryRescaled (hC : Closed P true (Session.setting P) C)
    (hsearch : ∀ x f step length tol, C _ (AlgebraicLoop.lineSearch P x f step length tol))
    (first : Bool) (standing : Standing α) : C _ (tryRescaled P first standing) := by
  rw [tryRescaled_parts]
  split
  · refine hC.seq (hC.announceRetry standing) fun _ => ?_
    exact hC.seq (hC.rescaledRetry hsearch) (hC.concludeRetry standing)
  · exact hC.value _

theorem tryNominal (hC : Closed P true (Session.stage P) C)
    (hsearch : ∀ x f step length tol, C _ (AlgebraicLoop.lineSearch P x f step length tol))
    (hrestart : C _ (restartFromNominal P)) (s : Standing α) : C _ (tryNominal P s) := by
  unfold AlgebraicLoop.tryNominal
  split
  · refine hC.seq hrestart fun _ => ?_
    refine hC.seq (hC.work (fun _ => ⟨rfl, rfl, rfl, rfl⟩) (fun _ _ _ => rfl) fun _ => rfl) fun _ => ?_
    refine hC.seq (hC.notice _) fun _ => ?_
    exact hC.seq (hC.runDamped hsearch _ false) fun _ => hC.value _
  · exact hC.value _

/-! ## Plain methods -/

theorem moveFully (hC : Closed P past (Session.stage P) C) (x f y g : Vector α n)
    (iteration : Nat) (kind : StepKind) (fresh : Bool) (record : RunRecord α) :
    C _ (moveFully x f y g iteration kind fresh record) := by
  refine hC.seq (hC.update ⟨fun _ => rfl, fun s m => ?_, fun _ => rfl, fun _ => ⟨.inl rfl, id⟩,
    fun _ _ => .inl rfl⟩) fun _ => ?_
  · simp only [Session.shown, Session.veiled, Session.outdated, Bool.and_self_left, Box.blank_blank]
  · exact hC.read (fun _ _ => rfl) fun s => hC.value _

theorem iterateUndamped (hC : Closed P true (Session.stage P) C) (tol : Tolerances α)
    (iteration : Nat) (f : Vector α n) (record : RunRecord α) :
    C _ (iterateUndamped P tol iteration f record) := by
  refine hC.read (fun _ _ => rfl) fun s => ?_
  refine hC.seq (hC.spot.footing.prepareJacobian iteration s.x f) fun status => ?_
  cases status with
  | error _ => exact hC.value _
  | ok fresh =>
    refine hC.seq (hC.spot.footing.computeStep f _) fun found => ?_
    cases found with
    | none => exact hC.value _
    | some found =>
      refine hC.read (fun t m => ?_) fun t => ?_
      · rw [clampPoint_shown]
      refine hC.seq (hC.residual _) fun answer => ?_
      cases answer with
      | error _ => exact hC.value _
      | ok g =>
        refine hC.seq (hC.moveFully s.x f _ g iteration _ fresh record) fun record => ?_
        split
        · exact hC.value _
        · exact hC.value _

theorem loopUndamped (hC : Closed P true (Session.stage P) C) (tol : Tolerances α)
    (budget iteration : Nat) (f : Vector α n) (record : RunRecord α) :
    C _ (loopUndamped P tol budget iteration f record) := by
  induction budget generalizing iteration f record with
  | zero => exact hC.value _
  | succ budget ih =>
    refine hC.seq (hC.iterateUndamped tol iteration f record) fun progress => ?_
    cases progress with
    | inl attempt => exact hC.value _
    | inr next => exact ih _ next.1 next.2

theorem runUndamped (hC : Closed P true (Session.stage P) C) (tol : Tolerances α) :
    C _ (runUndamped P tol) := by
  refine hC.read (fun _ _ => rfl) fun s => ?_
  refine hC.seq (hC.residual s.x) fun answer => ?_
  cases answer with
  | error _ => exact hC.value _
  | ok f =>
    refine hC.read (fun _ _ => rfl) fun t => ?_
    dsimp only
    split
    · exact hC.value _
    · exact hC.loopUndamped tol _ _ f _

theorem factorDirect (hC : Closed P past (Session.footing P) C) : C _ factorDirect := by
  refine hC.read (fun _ _ => rfl) fun s => ?_
  refine hC.seq (hC.work (fun _ => ⟨rfl, rfl, rfl, rfl⟩) (fun _ _ _ => rfl) fun _ => rfl) fun _ => ?_
  split
  · refine hC.seq (hC.work (fun _ => ⟨rfl, rfl, rfl, rfl⟩) (fun _ _ _ => rfl) fun _ => rfl) fun _ => ?_
    exact hC.value _
  · refine hC.seq (hC.work (fun _ => ⟨rfl, rfl, rfl, rfl⟩) (fun _ _ _ => rfl) fun _ => rfl) fun _ => ?_
    refine hC.seq (hC.notice _) fun _ => ?_
    split
    · exact hC.seq (hC.storeFactorization _) fun _ => hC.value _
    · exact hC.seq (hC.storeFactorization _) fun _ => hC.value _

theorem moveDirectly (hC : Closed P past (Session.stage P) C) (tol : Tolerances α)
    (x : Vector α n) (initialNorm : α) (step : Vector α n) (kind : StepKind) :
    C _ (moveDirectly P tol x initialNorm step kind) := by
  refine hC.read (fun s m => ?_) fun s => ?_
  · dsimp only
    rw [clampPoint_shown]
  refine hC.seq (hC.residual _) fun answer => ?_
  cases answer with
  | error _ => exact hC.value _
  | ok g =>
    refine hC.seq (hC.update (tame (fun _ => rfl) (fun _ => ⟨rfl, rfl, rfl, rfl⟩)
      (fun _ _ _ _ _ => rfl) (fun _ => rfl) (fun _ => ⟨.inl rfl, id⟩) fun _ _ => .inl rfl)) fun _ => ?_
    exact hC.read (fun _ _ => rfl) fun t => hC.value _

theorem runDirect (hC : Closed P true (Session.stage P) C) (tol : Tolerances α) :
    C _ (runDirect P tol) := by
  rw [runDirect_eq]
  refine hC.read (fun _ _ => rfl) fun s => ?_
  refine hC.seq (hC.residual _) fun answer => ?_
  cases answer with
  | error _ => exact hC.value _
  | ok f =>
    refine hC.read (fun _ _ => rfl) fun t => ?_
    refine hC.seq (hC.spot.footing.prepareJacobian 1 s.x f) fun status => ?_
    cases status with
    | error _ => exact hC.value _
    | ok _ =>
      refine hC.seq (hC.read (fun _ _ => rfl) fun u => ?_) fun usable => ?_
      · split
        · exact hC.value _
        · exact hC.spot.footing.factorDirect
      · refine hC.read (fun _ _ => rfl) fun u => ?_
        dsimp only
        split
        · exact hC.value _
        · exact hC.moveDirectly tol s.x _ _ _

end Closed

end

end AlgebraicLoop
