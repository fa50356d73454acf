import AlgebraicLoop.Proofs.Binary64Laws
import AlgebraicLoop.Proofs.TwoRuns

/-!
# Going back to a checkpoint

A block that has been solved goes back to a checkpoint without a trace: whatever was done since, the
next solve runs as it would have run at the checkpoint. The checkpoint does not keep all that a solve
reads. What it leaves out is either emptied before it is read, or is the same after every operation
on a block that has been set up.

* `Drift`: what every operation leaves as it is;
* `Session.SetUp`, `Session.Quiet`: a block that has been set up, and one that is between operations;
* `Operation`, `Eventless`: the operations on a block, and the blocks they lead to;
* `solve_after_restore`: the solve after going back.
-/

namespace AlgebraicLoop
set_option autoImplicit false

/-! ## What every operation leaves as it is -/

/-- What is derived from the start values once, and nothing after that changes. -/
structure Layout (α : Type) (n : Nat) where
  lower : Vector α n
  upper : Vector α n
  nominal : Vector α n
  box : Box α n
  pattern : Option (Pattern n n)
  ready : Bool
  /-- Left out where exact derivatives are compared with difference quotients. -/
  jacobianMismatches : Option Nat

section
variable {α σ ν : Type} {n : Nat}

/-- What a session has once it has been set up. -/
def Session.layout (P : Problem α σ n) (s : Session α σ n) : Layout α n where
  lower := s.lower
  upper := s.upper
  nominal := s.nominal
  box := s.work.box.blank
  pattern := s.work.pattern
  ready := s.work.ready
  jacobianMismatches :=
    if P.options.checkJacobian then none else some s.work.jacobianMismatches

/-- A session after an operation that began in another one. -/
structure Drift (P : Problem α σ n) (view : σ → ν) (s t : Session α σ n) : Prop where
  onward : Onward s t
  atEvent : s.atEvent = false → t.atEvent = false
  layout : s.phase ≠ .untouched → s.work.ready = true → t.layout P = s.layout P
  view : Determined P.model view → s.phase ≠ .untouched → view t.model = view s.model

variable {P : Problem α σ n} {view : σ → ν}

theorem Drift.trans {s t u : Session α σ n} (hst : Drift P view s t) (htu : Drift P view t u) :
    Drift P view s u where
  onward := ⟨fun h => htu.onward.phase (hst.onward.phase h),
    fun h => htu.onward.event (hst.onward.event h)⟩
  atEvent h := htu.atEvent (hst.atEvent h)
  layout hs hready := by
    have hlayout := hst.layout hs hready
    have ht : t.work.ready = true := (congrArg Layout.ready hlayout).trans hready
    exact (htu.layout (hst.onward.phase hs) ht).trans hlayout
  view hP hs := (htu.view hP (hst.onward.phase hs)).trans (hst.view hP hs)

theorem Drift.of_setting {s t : Session α σ n} (hsetting : t.setting P = s.setting P)
    (honward : Onward s t) (hview : Determined P.model view → view t.model = view s.model) :
    Drift P view s t where
  onward := honward
  atEvent h := (congrArg Setting.atEvent hsetting).trans h
  layout _ _ := congrArg (fun p : Setting α n => (⟨p.lower, p.upper, p.nominal, p.box, p.pattern,
    p.ready, p.jacobianMismatches⟩ : Layout α n)) hsetting
  view hP _ := hview hP

theorem Light.drift {s t : Session α σ n} (h : Light s t) : Drift P view s t where
  onward := by
    obtain ⟨hphase, hevent⟩ := Prod.mk.inj h.stage
    exact ⟨fun hs => by rw [hphase]; exact hs, fun hs => by rw [hevent]; exact hs⟩
  atEvent hs := by
    obtain heq | hfalse := h.atEvent
    · exact heq.trans hs
    · exact hfalse
  layout _ _ := by
    obtain ⟨hlower, hrest⟩ := Prod.mk.inj h.given
    obtain ⟨hupper, hnominal⟩ := Prod.mk.inj hrest
    obtain ⟨hbox, hrest⟩ := Prod.mk.inj h.box
    obtain ⟨hpattern, hready⟩ := Prod.mk.inj hrest
    have hmismatches := congrArg (fun p => p.2.2) h.flags
    dsimp only at hmismatches
    unfold Session.layout
    rw [hlower, hupper, hnominal, hbox, hpattern, hready, hmismatches]
  view _ _ := by rw [h.model]

theorem drift_request {β : Type} {request : Answer σ β}
    (h : Determined P.model view → SeenBy view request) (kind : Request)
    (record : Except EvalFailure β → Call α n) :
    Follows (Drift P view) (ask request record >>= settleAnswer kind) :=
  follows_request fun s => Drift.of_setting rfl ⟨id, id⟩ fun hP => (h hP).keeps s.model

theorem drift_updateAuxiliary (P : Problem α σ n) (view : σ → ν) (x : Vector α n) :
    Follows (Drift P view) (updateAuxiliary P x) :=
  follows_updateAuxiliary fun s _ =>
    Drift.of_setting rfl ⟨id, id⟩ fun hP => (hP.evaluateAuxiliary x).keeps s.model

theorem drift_writeBack (P : Problem α σ n) (view : σ → ν) :
    Follows (Drift P view) (writeBack P) :=
  follows_writeBack fun s =>
    Drift.of_setting rfl ⟨id, id⟩ fun hP => (hP.writeBack s.x).keeps s.model

variable [Scalar α]

theorem drift_evaluate (P : Problem α σ n) (view : σ → ν) (x : Vector α n) :
    Follows (Drift P view) (evaluate P x) :=
  follows_evaluate fun s _ _ =>
    Drift.of_setting rfl ⟨id, id⟩ fun hP => (hP.evaluate x).keeps s.model

/-- Every part of a solve drifts. -/
theorem closed_drift (P : Problem α σ n) (view : σ → ν) :
    Closed P true (Session.setting P) fun _ a => Follows (Drift P view) a where
  value _ s := Light.drift (Light.refl s)
  seq ha hf := ha.bind (fun _ _ _ => Drift.trans) hf
  read _ hf s := hf s s
  residualNominals _ hf s := hf s s
  update hg s := Drift.of_setting (hg.keeps s) (hg.proceeds s).onward
    fun _ => congrArg view (congrArg Ledger.model (hg.silent s))
  notice _ s := Drift.of_setting rfl ⟨id, id⟩ fun _ => rfl
  residual := drift_evaluate P view
  written _ _ _ _ hstore s := hstore _ s
  jacobian jacobian hj x A := drift_request (fun hP => (hP.jacobian jacobian hj x).seen A) _ _
  directional derivative hd x direction :=
    drift_request (fun hP => hP.directional derivative hd x direction) _ _
  auxiliary := drift_updateAuxiliary P view
  limit x step s := by
    have hkeeps := (course_limitByBox P x step s).ok (limitByBox_apply P x step s)
    exact Drift.of_setting (congrArg (fun p : Footing α n => p.toSetting) hkeeps.keeps) ⟨id, id⟩
      fun _ => rfl

omit [Scalar α] in
theorem settles_drift (P : Problem α σ n) (view : σ → ν) :
    Settles (Drift P view : Session α σ n → Session α σ n → Prop) := fun _ _ hphase =>
  Drift.of_setting rfl ⟨fun _ => hphase, id⟩ fun _ => rfl

/-- Start values change what an operation leaves alone of a block that has not started only. -/
theorem drift_prepareUnknowns (P : Problem α σ n) (view : σ → ν) :
    Follows (Drift P view) (prepareUnknowns P) := by
  intro s
  by_cases hs : s.phase = .untouched
  · have drift : ∀ t, Course Session.backdrop s t → Drift P view s t := by
      intro t h
      obtain ⟨_, hrest⟩ := Prod.mk.inj h.keeps
      obtain ⟨hevent, hrest⟩ := Prod.mk.inj hrest
      have hsince := (Prod.mk.inj hrest).1
      exact ⟨⟨fun h => absurd hs h, fun h => hsince.trans h⟩, fun h => hevent.trans h,
        fun h => absurd hs h, fun _ h => absurd hs h⟩
    exact (course_prepareUnknowns P s).mono (fun _ t _ => drift t) fun _ t _ => drift t
  · rw [after_congr (prepareUnknowns_again hs)]
    exact Light.drift (Light.refl s)

theorem drift_setUp (P : Problem α σ n) (view : σ → ν) : Follows (Drift P view) (setUp P) :=
  fun s => after_setUp (fun _ => Light.drift (Light.refl s)) fun hready =>
    ⟨⟨id, id⟩, id, fun _ h => absurd (hready.symm.trans h) Bool.false_ne_true, fun _ _ => rfl⟩

/-- Every operation drifts, outside its attempts and in them. -/
theorem routine_drift (P : Problem α σ n) (view : σ → ν) : Routine P (Drift P view) where
  trans _ _ _ := Drift.trans
  light _ _ := Light.drift
  closed := (closed_drift P view).stage
  prepareUnknowns := drift_prepareUnknowns P view
  setUp := drift_setUp P view
  writeBack := drift_writeBack P view
  rewind _ _ _ := ⟨⟨id, id⟩, id, fun _ _ => rfl, fun _ _ => rfl⟩

/-! ## Whole operations -/

/-- What remains to be done about a fresh Jacobian once the start values were taken. -/
def startedJacobian (P : Problem α σ n) : Action α σ n Unit := do
  discard (setUp P)
  let x := (← get).x
  match ← evaluate P x with
  | .error mishap => fail (.jacobian mishap)
  | .ok f => do
    modifyWork fun w => { w with flags.forceNewJacobian := true }
    match ← evaluateJacobian P x f with
    | .error mishap => fail (.jacobian mishap)
    | .ok () => pure ()

theorem freshJacobian_eq (P : Problem α σ n) :
    freshJacobian P = prepareUnknowns P >>= fun _ => startedJacobian P := rfl

/-- A fresh Jacobian is set up, evaluated at a point with a residual, and marked as forced. -/
theorem Closed.startedJacobian {γ : Type} {keep : Session α σ n → γ}
    {C : (β : Type) → Action α σ n β → Prop} (hC : Closed P true keep C) (hsetUp : C _ (setUp P))
    (hforce : C _ (modifyWork fun w => { w with flags.forceNewJacobian := true }))
    (hevaluate : ∀ x f, C _ (AlgebraicLoop.evaluateJacobian P x f))
    (hfail : ∀ mishap, C Unit (fail (.jacobian mishap))) : C _ (startedJacobian P) := by
  refine hC.seq (hC.seq hsetUp fun _ => hC.value _) fun _ => hC.read (fun _ _ => rfl) fun s => ?_
  refine hC.seq (hC.residual s.x) fun answer => ?_
  cases answer with
  | error mishap => exact hfail mishap
  | ok f =>
    refine hC.seq hforce fun _ => hC.seq (hevaluate s.x f) fun status => ?_
    cases status with
    | error mishap => exact hfail mishap
    | ok _ => exact hC.value _

section
variable {R : Session α σ n → Session α σ n → Prop}

namespace Forward

theorem lineSearch (hR : Forward P R) (x f step : Vector α n) (length stepTolerance : α) :
    Follows R (lineSearch P x f step length stepTolerance) :=
  hR.closed.lineSearch (fun s => hR.light s s (Light.refl s)) x f step length stepTolerance

theorem tryNominal (hR : Forward P R) (standing : Standing α) :
    Follows R (tryNominal P standing) :=
  hR.closed.tryNominal hR.lineSearch hR.restartFromNominal standing

theorem closeSolve (hR : Forward P R) (hsettles : Settles R) (standing : Standing α) :
    Follows R (closeSolve P standing) := by
  refine hR.bind hR.writeBack fun _ => ?_
  split
  · refine hR.bind (fun s => hsettles s _ Phase.noConfusion) fun _ => ?_
    exact hR.read fun _ => hR.value _
  · refine hR.bind (fun s => ?_) fun _ => hR.notify_bind (hR.fail _)
    exact hR.trans s _ _ (hsettles s .failed Phase.noConfusion)
      (hR.light _ _ ⟨rfl, rfl, .inl rfl, rfl, rfl, .inl rfl, rfl, rfl, rfl, rfl⟩)

/-- All attempts of a solve, and its close. -/
theorem attempts (hR : Forward P R) (hsettles : Settles R)
    (hC : Closed P true (Session.setting P) fun _ a => Follows R a) (first : Bool) :
    Follows R (afterOpening P first) := by
  refine hR.bind (hC.firstAttempt (fun _ hf s => hf s s) hR.lineSearch) fun standing => ?_
  refine hR.bind (hC.stage.tryDescent hR.lineSearch standing) fun standing => ?_
  refine hR.bind (hC.tryRescaled hR.lineSearch first standing) fun standing => ?_
  exact hR.bind (hR.tryNominal standing) fun standing => hR.closeSolve hsettles standing

theorem once (hR : Forward P R) (hsettles : Settles R)
    {run : Problem α σ n → Tolerances α → Action α σ n (Attempt α)}
    (hrun : ∀ tol, Follows R (run P tol)) : Follows R (solveOnce P run) := by
  refine hR.bind (hR.bind hR.setUp fun _ => hR.value _) fun _ => ?_
  refine hR.bind (hR.closed.enter trivial fun _ => rfl) fun _ => ?_
  exact hR.bind (hrun _) fun _ => hR.closeSolve hsettles _

/-- The method of a solve, and the marks that are taken back after it. -/
theorem concluded (hR : Forward P R) (hsolve : Follows R (solveByMethod P)) :
    Follows R (thenAlways (solveByMethod P) Session.unmarked) := by
  intro s
  have marks : ∀ t, R s t → R s t.unmarked := fun t h =>
    hR.trans s t _ h (hR.light t _ ⟨rfl, rfl, .inl rfl, rfl, rfl, .inr rfl, rfl, rfl, rfl, rfl⟩)
  exact after_thenAlways.2 ((hsolve s).mono (fun _ t _ => marks t) fun _ t _ => marks t)

theorem solveAction (hR : Forward P R) (hsolve : Follows R (solveByMethod P)) :
    Follows R (solveAction P) := by
  rw [solveAction_eq]
  exact hR.bind hR.prelude fun _ => hR.concluded hsolve

theorem putAt (hR : Forward P R) (s : Session α σ n) (x : Vector α n) : R s (s.putAt P x) :=
  hR.light s _ ⟨rfl, rfl, .inl rfl, rfl, rfl, .inl rfl, rfl, rfl, rfl, rfl⟩

theorem setPointAction (hR : Forward P R) (x : Array α) : Follows R (setPointAction P x) :=
  follows_setPointAction hR.same hR.trans hR.prepareUnknowns hR.putAt x

theorem startedJacobian (hR : Forward P R) : Follows R (startedJacobian P) :=
  hR.closed.startedJacobian hR.setUp
    (hR.change fun _ => ⟨rfl, rfl, .inl rfl, rfl, rfl, .inl rfl, rfl, rfl, rfl, rfl⟩)
    hR.closed.spot.footing.evaluateJacobian fun _ => hR.fail _

theorem freshJacobian (hR : Forward P R) : Follows R (freshJacobian P) := by
  rw [freshJacobian_eq]
  exact hR.bind hR.prepareUnknowns fun _ => hR.startedJacobian

theorem jacobianAction (hR : Forward P R) : Follows R (jacobianAction P) :=
  hR.bind hR.freshJacobian fun _ => hR.read fun _ => hR.value _

theorem factorizeAction (hR : Forward P R) : Follows R (factorizeAction P) := by
  refine hR.bind hR.freshJacobian fun _ => ?_
  refine hR.bind hR.closed.spot.footing.factorize fun usable => ?_
  split
  · exact hR.read fun _ => hR.value _
  · exact hR.fail _

end Forward

namespace Routine

theorem solveDamped (hR : Routine P R) (hsettles : Settles R)
    (hC : Closed P true (Session.setting P) fun _ a => Follows R a) : Follows R (solveDamped P) :=
  hR.bind hR.openSolve fun first => hR.attempts hsettles hC first

theorem byMethod (hR : Routine P R) (hsettles : Settles R)
    (hC : Closed P true (Session.setting P) fun _ a => Follows R a) :
    Follows R (solveByMethod P) := by
  unfold solveByMethod
  split
  · exact hR.solveDamped hsettles hC
  · exact hR.once hsettles hC.stage.runUndamped
  · exact hR.once hsettles hC.stage.runDirect

end Routine

end

/-! ## Blocks that have been set up -/

/-- A block whose start values were taken, and from them bounds, scales and pattern. -/
structure Session.SetUp (s : Session α σ n) : Prop where
  started : s.phase ≠ .untouched
  ready : s.work.ready = true

omit [Scalar α] in
theorem Session.SetUp.drift {s t : Session α σ n} (hs : s.SetUp) (h : Drift P view s t) :
    t.SetUp :=
  ⟨h.onward.phase hs.started, (congrArg Layout.ready (h.layout hs.started hs.ready)).trans hs.ready⟩

theorem prepareUnknowns_started (P : Problem α σ n) (s : Session α σ n) :
    After (prepareUnknowns P) s (fun _ t => t.phase ≠ .untouched)
      fun halt _ => ∀ details, halt ≠ .fault (.unconverged details) :=
  after_prepareUnknowns id (fun _ _ _ _ _ => Phase.noConfusion) fun _ _ _ h details e =>
    h.not_unconverged details (Halt.fault.inj e)

theorem prelude_leaves_started (P : Problem α σ n) (s : Session α σ n) :
    After (prelude P) s (fun _ t => t.phase ≠ .untouched)
      fun halt _ => ∀ details, halt ≠ .fault (.unconverged details) := by
  unfold prelude
  rw [after_bind]
  refine (prepareUnknowns_started P _).bind fun _ t ht => ?_
  rw [after_congr (approach_apply P t)]
  split
  · exact after_updateAuxiliary (fun _ _ _ => nofun) (fun _ _ => ht) fun _ => ht
  · exact ht

theorem solveDamped_setUp (P : Problem α σ n) {s : Session α σ n} (hs : s.phase ≠ .untouched) :
    After (solveDamped P) s (fun _ t => t.SetUp) fun _ t => t.SetUp := by
  have hR := routine_drift P fun _ => ()
  have hsetUp : After (setUp P) s (fun _ t => t.SetUp) fun _ t => t.SetUp :=
    after_setUp (fun hready => ⟨hs, hready⟩) fun _ => ⟨hs, rfl⟩
  have keep : ∀ {β : Type} {a : Action α σ n β}, Follows (Drift P fun _ => ()) a →
      ∀ {t : Session α σ n}, t.SetUp → After a t (fun _ u => u.SetUp) fun _ u => u.SetUp :=
    fun ha t ht => (ha t).mono (fun _ _ _ h => ht.drift h) fun _ _ _ h => ht.drift h
  refine After.bind (R := fun _ t => t.SetUp) ?_ fun first t ht =>
    keep (hR.attempts (settles_drift P _) (closed_drift P _) first) ht
  refine hsetUp.bind fun first t ht => ?_
  refine keep ?_ ht
  exact hR.change_bind (fun s => ⟨rfl, rfl, .inr rfl, rfl, rfl, .inl rfl, rfl, rfl, rfl, rfl⟩)
    (hR.openFrom first)

/-- A solve that comes to a report, or to the fault that it did not converge, leaves a block that
has been set up. -/
theorem setUp_of_solve {b : Block α σ n} (hmethod : b.problem.options.method = .damped)
    (h : (∃ report, b.solve.1 = .ok report) ∨
      ∃ details, b.solve.1 = .error (.fault (.unconverged details))) :
    b.solve.2.session.SetUp := by
  have hsolve : After (solveAction b.problem) b.session (fun _ t => t.SetUp)
      fun halt t => (∃ details, halt = .fault (.unconverged details)) → t.SetUp := by
    rw [solveAction_eq, after_bind]
    refine (prelude_leaves_started b.problem b.session).mono (fun _ u _ hu => ?_)
      fun halt _ _ hne ⟨details, hd⟩ => absurd hd (hne details)
    rw [solveByMethod_damped hmethod, after_thenAlways]
    exact (solveDamped_setUp b.problem hu).mono (fun _ _ _ hv => ⟨hv.started, hv.ready⟩)
      fun _ _ _ hv _ => ⟨hv.started, hv.ready⟩
  unfold Block.solve at h ⊢
  cases hrun : solveAction b.problem b.session with
  | ok report t =>
    rw [Block.perform_ok hrun]
    exact hsolve.ok hrun
  | error halt t =>
    rw [Block.perform_error hrun] at h ⊢
    refine hsolve.error hrun ?_
    obtain ⟨_, h⟩ | ⟨details, h⟩ := h
    · cases h
    · exact ⟨details, Except.error.inj h⟩

/-! ## Attempts that come to their end -/

/-- A model none of whose answers during a solve is fatal. -/
structure NeverFatal (model : Model α σ n) : Prop where
  evaluate : ∀ x s reason, (model.evaluate x s).1 ≠ .error (.fatal reason)
  evaluateAuxiliary : ∀ x s reason, (model.evaluateAuxiliary x s).1 ≠ .error (.fatal reason)
  jacobian : ∀ jacobian, model.jacobian = some jacobian → ∀ x A s reason,
    ((jacobian x s).answer A).1 ≠ .error (.fatal reason)
  directional : ∀ derivative, model.directional = some derivative → ∀ x direction s reason,
    (derivative x direction s).1 ≠ .error (.fatal reason)

/-- An action that never halts. -/
def Total {β : Type} (a : Action α σ n β) : Prop :=
  ∀ s, After a s (fun _ _ => True) fun _ _ => False

omit [Scalar α] in
theorem Total.bind {β γ : Type} {a : Action α σ n β} {f : β → Action α σ n γ} (ha : Total a)
    (hf : ∀ v, Total (f v)) : Total (a >>= f) := by
  intro s
  rw [after_bind]
  exact (ha s).mono (fun v t _ _ => hf v t) fun _ _ _ h => h

omit [Scalar α] in
theorem total_request {β : Type} {request : Answer σ β}
    (h : ∀ s reason, (request s).1 ≠ .error (.fatal reason)) (kind : Request)
    (record : Except EvalFailure β → Call α n) :
    Total (ask request record >>= settleAnswer kind) := fun s =>
  after_request (h s.model) (fun _ _ => trivial) fun _ _ => trivial

/-- Without fatal answers no part of a solve halts. -/
theorem closed_total (hfatal : NeverFatal P.model) :
    Closed P true (Session.setting P) fun _ a => Total a where
  value _ _ := trivial
  seq ha hf := ha.bind hf
  read _ hf s := hf s s
  residualNominals _ hf s := hf s s
  update _ _ := trivial
  notice _ _ := trivial
  residual x s := after_evaluate (hfatal.evaluate x s.model) (fun _ _ => trivial)
    (fun _ _ _ _ => trivial) fun _ _ _ => trivial
  written _ _ _ _ _ _ := trivial
  jacobian jacobian hj x A := total_request (hfatal.jacobian jacobian hj x A) _ _
  directional derivative hd x direction :=
    total_request (hfatal.directional derivative hd x direction) _ _
  auxiliary x s := after_updateAuxiliary (hfatal.evaluateAuxiliary x s.model)
    (fun _ _ => trivial) fun _ => trivial
  limit _ _ _ := trivial

/-- No attempt is running after the action if none was before it. -/
def Lowering {β : Type} (a : Action α σ n β) : Prop :=
  Follows (fun s t => s.flags = (false, false) → t.flags = (false, false)) a

omit [Scalar α] in
theorem Lowering.bind {β γ : Type} {a : Action α σ n β} {f : β → Action α σ n γ}
    (ha : Lowering a) (hf : ∀ v, Lowering (f v)) : Lowering (a >>= f) :=
  Follows.bind (fun _ _ _ hst htu h => htu (hst h)) ha hf

theorem lowering_of_course {β : Type} {a : Action α σ n β}
    (h : Follows (Course Session.flags) a) : Lowering a :=
  fun s => (h s).mono (fun _ _ _ hst hs => hst.keeps.trans hs) fun _ _ _ hst hs =>
    hst.keeps.trans hs

section
variable [LawfulScalar α]

theorem lowering_firstAttempt (hfatal : NeverFatal P.model) : Lowering (firstAttempt P) := by
  have hC := closed_total hfatal
  intro s
  obtain ⟨standing, v, hv, -⟩ :=
    After.exists_ok (hC.firstAttempt (fun _ hf s => hf s s) hC.lineSearch_of_lawful s)
  unfold After
  rw [hv]
  intro _
  obtain ⟨attempt, t, ht, hrefine⟩ := firstAttempt_ok hv
  have hrun := ((course_runDamped P _ _).ok ht).keeps
  have hlast := ((course_refineAttempt P attempt).ok hrefine).keeps
  have hfirst : v.work.firstAttempt = false := congrArg Stage.firstAttempt hlast
  have hretrying : v.work.retrying = false :=
    (congrArg Stage.retrying hlast).trans (congrArg Stage.retrying hrun)
  exact Prod.ext hfirst hretrying

theorem lowering_tryRescaled (hfatal : NeverFatal P.model) (first : Bool)
    (standing : Standing α) : Lowering (tryRescaled P first standing) := by
  have hC := closed_total hfatal
  intro s
  obtain ⟨standing', v, hv, -⟩ :=
    After.exists_ok (hC.tryRescaled hC.lineSearch_of_lawful first standing s)
  unfold After
  rw [hv]
  intro hs
  obtain ⟨_, rfl⟩ | ⟨retry, t, _, _, hretry, _, rfl⟩ := tryRescaled_ok hv
  · exact hs
  · obtain ⟨u, w, hu, hw, rfl⟩ := rescaledRetry_runs hretry
    have hscales := ((course_updateResidualScales P).ok hu).keeps
    have hrun := ((course_runDamped P _ _).ok hw).keeps
    have hfirst : w.work.firstAttempt = s.work.firstAttempt :=
      (congrArg Stage.firstAttempt hrun).trans (congrArg (fun p => p.firstAttempt) hscales)
    exact Prod.ext (hfirst.trans (congrArg Prod.fst hs)) rfl

theorem lowering_solveDamped (hfatal : NeverFatal P.model) : Lowering (solveDamped P) := by
  have hR := routine_course P
  refine (lowering_of_course hR.openSolve).bind fun first => ?_
  refine (lowering_firstAttempt hfatal).bind fun standing => ?_
  refine (lowering_of_course (hR.closed.tryDescent hR.lineSearch standing)).bind fun standing => ?_
  refine (lowering_tryRescaled hfatal first standing).bind fun standing => ?_
  refine (lowering_of_course (hR.tryNominal standing)).bind fun standing => ?_
  exact lowering_of_course (hR.closeSolve (fun _ _ _ => Course.of_eq rfl rfl rfl) standing)

end

/-! ## Operations -/

/-- The operations on a block that a checkpoint may be followed by. -/
inductive Operation (α : Type) where
  | solve
  | setPoint (x : Array α)
  | evaluateJacobian
  | factorizeJacobian
  | completedOuterStep

/-- The block after an operation, however that ended. -/
def Block.after (b : Block α σ n) : Operation α → Block α σ n
  | .solve => b.solve.2
  | .setPoint x => (b.setPoint x).2
  | .evaluateJacobian => b.evaluateJacobian.2
  | .factorizeJacobian => b.factorizeJacobian.2
  | .completedOuterStep => b.completedOuterStep

/-- The blocks that are reached from a new one without an event of the model. -/
inductive Eventless : Block α σ n → Prop where
  | create {label : String} {model : Model α σ n} {state : σ} {options : Options α}
      {auxiliaryCount : Nat} {variability : Variability} {b : Block α σ n} :
      Block.create label model state options auxiliaryCount variability = .ok b → Eventless b
  | after {b : Block α σ n} (operation : Operation α) : Eventless b → Eventless (b.after operation)
  | restore {b : Block α σ n} {m : Nat} (checkpoint : Checkpoint α m) : Eventless b →
      Eventless (b.restore checkpoint).2
  | teardown {b : Block α σ n} : Eventless b → Eventless b.teardown
  | modifyModel {b : Block α σ n} (change : σ → σ) : Eventless b → Eventless (b.modifyModel change)

theorem Block.after_problem (b : Block α σ n) (operation : Operation α) :
    (b.after operation).problem = b.problem := by
  cases operation with
  | completedOuterStep => rfl
  | _ => exact Block.perform_problem b _

/-- What relates the ends of everything outside the attempts relates the ends of every operation but a
solve. -/
theorem Forward.after {b : Block α σ n} {R : Session α σ n → Session α σ n → Prop}
    (hR : Forward b.problem R) (haccept : R b.session b.completedOuterStep.session)
    {operation : Operation α} (hop : operation ≠ .solve) :
    R b.session (b.after operation).session := by
  cases operation with
  | solve => exact absurd rfl hop
  | setPoint x => exact Block.perform_session (hR.setPointAction x)
  | evaluateJacobian => exact Block.perform_session hR.jacobianAction
  | factorizeJacobian => exact Block.perform_session hR.factorizeAction
  | completedOuterStep => exact haccept

/-- What relates the ends of a solve as well relates the ends of every operation. -/
theorem Routine.after {b : Block α σ n} {R : Session α σ n → Session α σ n → Prop}
    (hR : Routine b.problem R) (hsolve : Follows R (solveByMethod b.problem))
    (haccept : R b.session b.completedOuterStep.session) (operation : Operation α) :
    R b.session (b.after operation).session := by
  by_cases hop : operation = .solve
  · subst hop
    exact Block.perform_session (hR.solveAction hsolve)
  · exact hR.toForward.after haccept hop

/-! ## What lasts once a block has started -/

/-- A property of started blocks that their setting decides, and that lasts when they are set up. -/
structure Steady (P : Problem α σ n) (I : Session α σ n → Prop) : Prop where
  started : ∀ s, I s → s.phase ≠ .untouched
  light : ∀ s t, Light s t → I s → I t
  setting : ∀ s t, t.setting P = s.setting P → t.phase ≠ .untouched → I s → I t
  setUp : Follows (fun s t => I s → I t) (setUp P)

/-- Going back to the accepted outer step leaves the property as well. -/
structure Lasting (P : Problem α σ n) (I : Session α σ n → Prop) : Prop extends Steady P I where
  rewind : ∀ s c, s.work.accepted = some c → I s → I { s with x := c.x, work := s.work.rewind c }

namespace Steady
variable {I Q : Session α σ n → Prop}

theorem follows {β : Type} {a : Action α σ n β} (h : Steady P I)
    (hcourse : Follows (Course (Session.setting P)) a) (hdrift : Follows (Drift P fun _ => ()) a) :
    Follows (fun s t => I s → I t) a := by
  intro s
  have last : ∀ t, Course (Session.setting P) s t → Drift P (fun _ => ()) s t → I s → I t :=
    fun t hst hdrift hs => h.setting s t hst.keeps (hdrift.onward.phase (h.started s hs)) hs
  exact (hcourse s).mono (fun _ t ht hst => last t hst ((hdrift s).ok ht)) fun _ t ht hst =>
    last t hst ((hdrift s).error ht)

theorem closed (h : Steady P I) :
    Closed P true (Session.setting P) fun _ a => Follows (fun s t => I s → I t) a :=
  have hC := closed_course P true (fun f => f.toSetting) fun _ => rfl
  have hD := closed_drift P fun _ => ()
  { value := fun _ _ => id
    seq := fun ha hf => Follows.bind (fun _ _ _ hst htu hs => htu (hst hs)) ha hf
    read := fun _ hf s => hf s s
    residualNominals := fun _ hf s => hf s s
    update := fun hg s hs => h.setting s _ (hg.keeps s) ((hg.proceeds s).onward.phase (h.started s hs)) hs
    notice := fun notice => h.follows (hC.notice notice) (hD.notice notice)
    residual := fun x => h.follows (hC.residual x) (hD.residual x)
    written := fun _ _ _ _ hstore s => hstore _ s
    jacobian := fun jacobian hj x A =>
      h.follows (hC.jacobian jacobian hj x A) (hD.jacobian jacobian hj x A)
    directional := fun derivative hd x direction =>
      h.follows (hC.directional derivative hd x direction) (hD.directional derivative hd x direction)
    auxiliary := fun x => h.follows (hC.auxiliary x) (hD.auxiliary x)
    limit := fun x step => h.follows (hC.limit x step) (hD.limit x step) }

theorem prepareUnknowns (h : Steady P I) :
    Follows (fun s t => I s → I t) (prepareUnknowns P) := fun s =>
  after_prepareUnknowns (fun _ => id)
    (fun _ _ hs _ _ hI => absurd hs (h.started s hI)) fun _ _ hs _ hI => absurd hs (h.started s hI)

theorem writeBack (h : Steady P I) : Follows (fun s t => I s → I t) (writeBack P) :=
  follows_writeBack fun s hs => h.setting s _ rfl (h.started s hs) hs

theorem settles (h : Steady P I) : Settles fun s t => I s → I t := fun s _ hphase =>
  h.setting s _ rfl hphase

theorem forward (h : Steady P I) : Forward P fun s t => I s → I t where
  trans _ _ _ hst htu hs := htu (hst hs)
  light := h.light
  closed := h.closed.stage
  prepareUnknowns := h.prepareUnknowns
  setUp := h.setUp
  writeBack := h.writeBack

/-- What follows on the start values leaves the property as it is; `Q` may be all that holds where
these could not be taken. -/
theorem begun {β : Type} {f : Unit → Action α σ n β} {s : Session α σ n} (hQ : ∀ s, I s → Q s)
    (hbegin : After (AlgebraicLoop.prepareUnknowns P) s (fun _ t => I t) fun _ t => Q t)
    (hf : Follows (fun s t => I s → I t) (f ())) :
    After (AlgebraicLoop.prepareUnknowns P >>= f) s (fun _ t => Q t) fun _ t => Q t :=
  hbegin.bind fun _ t ht =>
    (hf t).mono (fun _ u _ hu => hQ u (hu ht)) fun _ u _ hu => hQ u (hu ht)

theorem prelude (h : Steady P I) {s : Session α σ n} (hQ : ∀ s, I s → Q s)
    (hbegin : After (AlgebraicLoop.prepareUnknowns P)
      { s with counters := { s.counters with solves := s.counters.solves + 1 } } (fun _ t => I t)
      fun _ t => Q t) :
    After (prelude P) s (fun _ t => I t) fun _ t => Q t := by
  unfold AlgebraicLoop.prelude
  rw [after_congr (modify_bind_apply _ _ _)]
  exact hbegin.bind fun _ t ht =>
    (h.forward.approach t).mono (fun _ _ _ hu => hu ht) fun _ u _ hu => hQ u (hu ht)

/-- Whatever an operation comes to that is not a solve, it leaves the block with what lasts, or with
what holds of blocks that could not take their start values. -/
theorem after {b : Block α σ n} (h : Steady b.problem I) (hQ : ∀ s, I s → Q s)
    (hbegin : After (AlgebraicLoop.prepareUnknowns b.problem) b.session (fun _ t => I t)
      fun _ t => Q t)
    (hb : Q b.session) {operation : Operation α} (hsolve : operation ≠ .solve)
    (hop : operation ≠ .completedOuterStep) : Q (b.after operation).session := by
  have hR := h.forward
  cases operation with
  | solve => exact absurd rfl hsolve
  | setPoint x =>
    have hrun : After (AlgebraicLoop.setPointAction b.problem x) b.session (fun _ => Q)
        fun _ => Q :=
      after_setPointAction (fun _ => hb) fun _ =>
        hbegin.mono (fun _ t _ ht => hQ _ (hR.putAt t _ ht)) fun _ _ _ => id
    exact Block.perform_after hrun
  | evaluateJacobian =>
    refine Block.perform_after ?_
    unfold jacobianAction
    rw [freshJacobian_eq, bind_assoc]
    exact begun hQ hbegin (hR.bind hR.startedJacobian fun _ => hR.read fun _ => hR.value _)
  | factorizeJacobian =>
    refine Block.perform_after ?_
    unfold factorizeAction
    rw [freshJacobian_eq, bind_assoc]
    refine begun hQ hbegin (hR.bind hR.startedJacobian fun _ => ?_)
    refine hR.bind hR.closed.spot.footing.factorize fun usable => ?_
    split
    · exact hR.read fun _ => hR.value _
    · exact hR.fail _
  | completedOuterStep => exact absurd rfl hop

end Steady

namespace Lasting
variable {I Q : Session α σ n → Prop}

theorem routine (h : Lasting P I) : Routine P fun s t => I s → I t where
  toForward := h.forward
  rewind := h.rewind

/-- Whatever an operation comes to, it leaves the block with what lasts, or with what holds of blocks
that could not take their start values. -/
theorem after {b : Block α σ n} (h : Lasting b.problem I) (hQ : ∀ s, I s → Q s)
    (hbegin : ∀ k : Nat, After (AlgebraicLoop.prepareUnknowns b.problem)
      { b.session with counters := { b.session.counters with solves := k } } (fun _ t => I t)
      fun _ t => Q t)
    (hb : Q b.session) {operation : Operation α} (hop : operation ≠ .completedOuterStep) :
    Q (b.after operation).session := by
  by_cases hsolve : operation = .solve
  · subst hsolve
    have hR := h.routine
    refine Block.perform_after ?_
    rw [solveAction_eq]
    refine (h.prelude hQ (hbegin _)).bind fun _ t ht => ?_
    exact (hR.concluded (hR.byMethod h.settles h.closed) t).mono (fun _ u _ hu => hQ u (hu ht))
      fun _ u _ hu => hQ u (hu ht)
  · exact h.toSteady.after hQ (hbegin b.session.counters.solves) hb hsolve hop

end Lasting

/-! ## Without an event -/

/-- A session without an event since the last solve or the last fresh Jacobian, and with no attempt
running. -/
structure Session.Quiet (s : Session α σ n) : Prop where
  atEvent : s.atEvent = false
  eventSinceJacobian : s.eventSinceJacobian = false
  flags : s.flags = (false, false)

/-- Outside the attempts nothing raises a flag of theirs. -/
theorem routine_lowering (P : Problem α σ n) :
    Routine P fun s t => s.flags = (false, false) → t.flags = (false, false) where
  trans _ _ _ hst htu h := htu (hst h)
  light _ _ hst h := hst.course.keeps.trans h
  closed :=
    have hR := routine_course P
    { value := fun _ _ => id
      seq := fun ha hf => Lowering.bind ha hf
      read := fun _ hf s => hf s s
      residualNominals := fun _ hf s => hf s s
      update := fun hg s h =>
        (congrArg (fun p : Stage α n => (p.firstAttempt, p.retrying)) (hg.keeps s)).trans h
      notice := fun _ _ => id
      residual := fun x => lowering_of_course (hR.closed.residual x)
      written := fun _ _ _ _ hstore s => hstore _ s
      jacobian := fun jacobian hj x A => lowering_of_course (hR.closed.jacobian jacobian hj x A)
      directional := fun derivative hd x direction =>
        lowering_of_course (hR.closed.directional derivative hd x direction)
      auxiliary := fun x => lowering_of_course (hR.closed.auxiliary x)
      limit := fun x step => lowering_of_course (hR.closed.limit x step) }
  prepareUnknowns := lowering_of_course (routine_course P).prepareUnknowns
  setUp := lowering_of_course (routine_course P).setUp
  writeBack := lowering_of_course (routine_course P).writeBack
  rewind _ _ _ := id

theorem follows_solveByMethod {R : Session α σ n → Session α σ n → Prop}
    (hmethod : P.options.method = .damped) (h : Follows R (solveDamped P)) :
    Follows R (solveByMethod P) := by
  rw [solveByMethod_damped hmethod]
  exact h

theorem Block.drift_after (b : Block α σ n) (view : σ → ν) (operation : Operation α) :
    Drift b.problem view b.session (b.after operation).session :=
  have hR := routine_drift b.problem view
  hR.after (hR.byMethod (settles_drift b.problem view) (closed_drift b.problem view))
    ⟨⟨id, id⟩, id, fun _ _ => rfl, fun _ _ => rfl⟩ operation

/-- Any number of operations drift from where they began. -/
theorem Block.drift_operations (b : Block α σ n) (view : σ → ν) (operations : List (Operation α)) :
    (operations.foldl Block.after b).problem = b.problem ∧
      Drift b.problem view b.session (operations.foldl Block.after b).session := by
  induction operations generalizing b with
  | nil => exact ⟨rfl, Light.drift (Light.refl _)⟩
  | cons operation operations ih =>
    obtain ⟨hrest, hdrift⟩ := ih (b.after operation)
    rw [b.after_problem operation] at hrest hdrift
    exact ⟨hrest, (b.drift_after view operation).trans hdrift⟩

omit [Scalar α] in
theorem Block.restore_eq (b : Block α σ n) (c : Checkpoint α n) :
    b.restore c = (.ok (), { b with session := b.session.rewound c }) := by
  unfold Block.restore Block.perform restoreAction
  rw [dif_pos rfl]
  rfl

omit [Scalar α] in
theorem Block.restore_misfit (b : Block α σ n) {m : Nat} (checkpoint : Checkpoint α m)
    (hm : m ≠ n) : b.restore checkpoint = (.error (.fault (.dimensionMismatch n m)), b) := by
  unfold Block.restore Block.perform restoreAction
  rw [dif_neg hm]
  rfl

omit [Scalar α] in
theorem Block.restore_session (b : Block α σ n) {m : Nat} (c : Checkpoint α m) :
    (∃ c' : Checkpoint α n, (b.restore c).2 = { b with session := b.session.rewound c' }) ∨
      (b.restore c).2 = b := by
  by_cases hm : m = n
  · subst hm
    exact .inl ⟨c, congrArg Prod.snd (b.restore_eq c)⟩
  · exact .inr (congrArg Prod.snd (b.restore_misfit c hm))

variable [LawfulScalar α]

theorem Session.Quiet.after {b : Block α σ n} (hb : b.session.Quiet)
    (hmethod : b.problem.options.method = .damped) (hfatal : NeverFatal b.problem.model)
    (operation : Operation α) : (b.after operation).session.Quiet := by
  have hdrift := b.drift_after (fun _ => ()) operation
  have hflags := (routine_lowering b.problem).after
    (follows_solveByMethod hmethod (lowering_solveDamped hfatal)) id operation
  exact ⟨hdrift.atEvent hb.atEvent, hdrift.onward.event hb.eventSinceJacobian, hflags hb.flags⟩

/-- Without events and fatal answers a block is quiet between its operations. -/
theorem Eventless.quiet {b : Block α σ n} (hb : Eventless b)
    (hmethod : b.problem.options.method = .damped) (hfatal : NeverFatal b.problem.model) :
    b.session.Quiet := by
  induction hb with
  | create h =>
    obtain ⟨_, rfl⟩ := Block.create_eq_ok h
    exact ⟨rfl, rfl, rfl⟩
  | @after b operation _ ih =>
    rw [Block.after_problem] at hmethod hfatal
    exact (ih hmethod hfatal).after hmethod hfatal operation
  | @restore b _ c _ ih =>
    obtain ⟨c', e⟩ | e := b.restore_session c
    · rw [e] at hmethod hfatal ⊢
      have hquiet := ih hmethod hfatal
      exact ⟨hquiet.atEvent, hquiet.eventSinceJacobian, hquiet.flags⟩
    · rw [e] at hmethod hfatal ⊢
      exact ih hmethod hfatal
  | teardown _ ih =>
    have hquiet := ih hmethod hfatal
    exact ⟨hquiet.atEvent, hquiet.eventSinceJacobian, rfl⟩
  | modifyModel change _ ih =>
    have hquiet := ih hmethod hfatal
    exact ⟨hquiet.atEvent, hquiet.eventSinceJacobian, hquiet.flags⟩

theorem Session.Quiet.operations {b : Block α σ n} (hb : b.session.Quiet)
    (hmethod : b.problem.options.method = .damped) (hfatal : NeverFatal b.problem.model)
    (operations : List (Operation α)) : (operations.foldl Block.after b).session.Quiet := by
  induction operations generalizing b with
  | nil => exact hb
  | cons operation operations ih =>
    have hproblem := b.after_problem operation
    exact ih (hb.after hmethod hfatal operation) (by rw [hproblem]; exact hmethod)
      (by rw [hproblem]; exact hfatal)

omit [LawfulScalar α] in
/-- A session agrees with the one that goes back to it after having drifted. -/
theorem Alike.rewound {P : Problem α σ n} {s t : Session α σ n} (hP : Determined P.model view)
    (hcheck : P.options.checkJacobian = false) (hs : s.SetUp) (hquiet : s.Quiet)
    (hquiet' : t.Quiet) (h : Drift P view s t) :
    Alike false true view t.notices.size s.notices.size (t.rewound (s.work.save s.x)).refreshed
      s.refreshed := by
  have hlayout := h.layout hs.started hs.ready
  have hlower : t.lower = s.lower := congrArg Layout.lower hlayout
  have hupper : t.upper = s.upper := congrArg Layout.upper hlayout
  have hnominal : t.nominal = s.nominal := congrArg Layout.nominal hlayout
  have hbox : t.work.box.blank = s.work.box.blank := congrArg Layout.box hlayout
  have hpattern : t.work.pattern = s.work.pattern := congrArg Layout.pattern hlayout
  have hready : t.work.ready = s.work.ready := congrArg Layout.ready hlayout
  have hmismatches : t.work.jacobianMismatches = s.work.jacobianMismatches := by
    have hsome := congrArg Layout.jacobianMismatches hlayout
    unfold Session.layout at hsome
    dsimp only at hsome
    rw [hcheck, if_neg Bool.false_ne_true, if_neg Bool.false_ne_true] at hsome
    exact Option.some.inj hsome
  have hevent : t.eventSinceJacobian = s.eventSinceJacobian :=
    hquiet'.eventSinceJacobian.trans hquiet.eventSinceJacobian.symm
  obtain ⟨hfirst, hretrying⟩ := Prod.mk.inj (hquiet'.flags.trans hquiet.flags.symm)
  refine ⟨fun m => ?_, fun _ => rfl, h.view hP hs.started, ?_, Nat.le_refl _, Nat.le_refl _⟩
  · unfold Session.shown Session.veiled Session.outdated Session.refreshed Session.rewound
      Workspace.rewind Workspace.save
    dsimp only [recalled]
    rw [hlower, hupper, hnominal, hbox, hpattern, hready, hmismatches, hevent, hfirst, hretrying]
  · exact (List.drop_length ..).trans (List.drop_length ..).symm

/-- A block that has been set up and not heard of an event goes back to a checkpoint without a
trace: whatever was done since, the next solve comes to the same as it would have at the checkpoint,
with the same notices, and ends at the same point. -/
theorem solve_after_restore {b : Block α σ n} (operations : List (Operation α)) (hb : Eventless b)
    (hsetUp : b.session.SetUp) (hmethod : b.problem.options.method = .damped)
    (haccepted : b.problem.options.startFromAccepted = false)
    (hcheck : b.problem.options.checkJacobian = false)
    (hmodel : Determined b.problem.model view) (hfatal : NeverFatal b.problem.model) :
    ∃ restored, (operations.foldl Block.after b).restore b.checkpoint = (.ok (), restored) ∧
      restored.solve.1 = b.solve.1 ∧
      restored.solve.2.session.x = b.solve.2.session.x ∧
      restored.solve.2.session.notices.toList.drop restored.session.notices.size =
        b.solve.2.session.notices.toList.drop b.session.notices.size := by
  have hquiet := hb.quiet hmethod hfatal
  have hquiet' := hquiet.operations hmethod hfatal operations
  obtain ⟨hproblem, hdrift⟩ := b.drift_operations view operations
  have hthere := hsetUp.drift hdrift
  have htogether := solveAction_together hmodel hmethod haccepted
    (s := (operations.foldl Block.after b).session.rewound b.checkpoint)
    ⟨hthere.started, hthere.ready, hquiet'.atEvent⟩
    ⟨hsetUp.started, hsetUp.ready, hquiet.atEvent⟩
    (Alike.rewound hmodel hcheck hsetUp hquiet hquiet' hdrift)
  refine ⟨_, Block.restore_eq _ _, ?_⟩
  unfold Block.solve Block.perform
  dsimp only
  rw [hproblem]
  cases hrun : solveAction b.problem
      ((operations.foldl Block.after b).session.rewound b.checkpoint) with
  | ok report s =>
    cases hrun' : solveAction b.problem b.session with
    | ok report' t =>
      rw [hrun, hrun'] at htogether
      obtain ⟨hreport, halike⟩ := htogether
      exact ⟨congrArg Except.ok hreport, congrArg (fun u => u.x) (halike.shown s.model),
        halike.notices⟩
    | error _ _ =>
      rw [hrun, hrun'] at htogether
      exact htogether.elim
  | error halt s =>
    cases hrun' : solveAction b.problem b.session with
    | ok _ _ =>
      rw [hrun, hrun'] at htogether
      exact htogether.elim
    | error halt' t =>
      rw [hrun, hrun'] at htogether
      obtain ⟨hhalt, halike⟩ := htogether
      exact ⟨congrArg Except.error hhalt, congrArg (fun u => u.x) (halike.shown s.model),
        halike.notices⟩

end

theorem determined_pointwise {α : Type} [Scalar α] {n : Nat} (options : Options α)
    (initial : Vector α n) (f : Vector α n → Except EvalFailure (Vector α n)) :
    Determined (Block.pointwise options initial f).problem.model fun s => s where
  evaluate _ := ⟨fun _ _ _ => rfl, fun _ => rfl⟩
  evaluateAuxiliary _ := ⟨fun _ _ _ => rfl, fun _ => rfl⟩
  writeBack _ := ⟨fun _ _ _ => rfl, fun _ => rfl⟩
  residualNominals _ _ _ := rfl
  jacobian _ h := by cases h
  directional _ h := by cases h

/-! ## Blocks of binary64 numbers -/

/-- A block whose solution is two. -/
def twoBlock : Block Float Unit 1 :=
  Block.pointwise Options.standard (.singleton 1) fun x => .ok (x.map fun x => x - 2)

theorem twoBlock_eventless : Eventless twoBlock :=
  @Eventless.create Float Unit 1 _ "loop" twoBlock.problem.model () Options.standard 0 .continuous
    twoBlock rfl

theorem twoBlock_neverFatal : NeverFatal twoBlock.problem.model where
  evaluate _ _ _ h := by cases h
  evaluateAuxiliary _ _ _ h := by cases h
  jacobian _ h := by cases h
  directional _ h := by cases h

set_option maxRecDepth 100000 in
theorem solve_after_restore_two :
    let b := twoBlock.solve.2
    b.session.SetUp ∧ ∃ restored,
      ([.solve, .setPoint #[5], .evaluateJacobian, .completedOuterStep].foldl Block.after b).restore
        b.checkpoint = (.ok (), restored) ∧ restored.solve.1 = b.solve.1 := by
  intro b
  have hsolved : twoBlock.solvesTo (fun _ => true) = true := by decide +kernel
  obtain ⟨report, _, hsolve, _⟩ := Block.exists_of_solvesTo hsolved
  have hsetUp : b.session.SetUp := setUp_of_solve rfl (.inl ⟨report, congrArg Prod.fst hsolve⟩)
  have hproblem : b.problem = twoBlock.problem := Block.perform_problem _ _
  have heventless : Eventless b := twoBlock_eventless.after .solve
  obtain ⟨restored, hrestore, hresult, _⟩ := solve_after_restore
    [.solve, .setPoint #[5], .evaluateJacobian, .completedOuterStep] heventless hsetUp
    (by rw [hproblem]; rfl) (by rw [hproblem]; rfl) (by rw [hproblem]; rfl)
    (by rw [hproblem]; exact determined_pointwise _ _ _)
    (by rw [hproblem]; exact twoBlock_neverFatal)
  exact ⟨hsetUp, restored, hrestore, hresult⟩

end AlgebraicLoop
