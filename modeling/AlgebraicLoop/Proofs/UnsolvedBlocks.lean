import AlgebraicLoop.Proofs.CounterpartSolves
import AlgebraicLoop.Proofs.FinalPoints
import AlgebraicLoop.Proofs.JacobianSteps
import AlgebraicLoop.Proofs.Passages

/-!
# Blocks before their first solve

A block may be asked for its Jacobian before it is solved, and a solve may be refused because the
residual is undefined where it begins. Neither leaves more behind than bounds, scales of the unknowns,
the pattern and a Jacobian. But both mark the block as set up.

* `Session.Unserved`, `Session.Waiting`: what such a block looks like;
* `freshJacobian_waiting`, `solveAction_refused`: what keeps it so;
* `Unsolved`: what is asked of a block before a solve gets past its start.
-/

namespace AlgebraicLoop
set_option autoImplicit false

section
variable {α σ ν : Type} [Scalar α] {n : Nat} {P : Problem α σ n} {s t u : Session α σ n}

/-! ## What fresh Jacobians leave alone -/

/-- What an evaluation of the Jacobian leaves alone. -/
structure Frame (α : Type) (n : Nat) where
  core : Core α n
  residualScale : Vector α n
  accepted : Option (Checkpoint α n)
  ready : Bool

/-- What an evaluation of the Jacobian leaves alone. -/
def Session.frame (s : Session α σ n) : Frame α n where
  core := { s.core with bracket := {}, jacobianMismatches := 0 }
  residualScale := s.work.residualScale
  accepted := s.work.accepted
  ready := s.work.ready

/-- The frame with other marks of a singular Jacobian. -/
def Frame.recovering (f : Frame α n) (singular : Bool) (recovery : RecoveryMode) : Frame α n :=
  { f with core := { f.core with singular, recovery } }

theorem closed_frame (P : Problem α σ n) (past : Bool) :
    Closed P past Session.frame
      fun _ a => Follows (fun s t : Session α σ n => t.frame = s.frame) a :=
  closed_still P past (fun _ _ _ _ _ _ => rfl) fun s box hbox => by
    simp only [Session.frame, Session.core, hbox]

theorem frame_evaluateJacobian (P : Problem α σ n) (x f : Vector α n) :
    Follows (fun s t => t.frame = s.frame) (evaluateJacobian P x f) := by
  refine (closed_frame P true).evaluateJacobian_of (fun _ _ => rfl) (fun _ => rfl) (fun _ => rfl)
    (fun _ tolerance J D i j s => ?_) x f
  unfold compareEntry
  split
  · exact rfl
  · exact rfl

omit [Scalar α] in
theorem Gear.Sane.later {g g' : Gear α n} (h : g.Sane)
    (hfactored : g'.factoredGeneration = g.factoredGeneration)
    (hgeneration : g.generation ≤ g'.generation) : g'.Sane :=
  fun k hk => Nat.le_trans (h k (hfactored.symm.trans hk)) hgeneration

theorem sane_evaluateJacobian (P : Problem α σ n) (x f : Vector α n) :
    Follows (fun s t => s.gear.Sane → t.gear.Sane) (evaluateJacobian P x f) := by
  have keep : ∀ {s t : Session α σ n}, t.marks = s.marks → s.gear.Sane → t.gear.Sane :=
    fun hmarks h => h.later (congrArg Marks.factoredGeneration hmarks)
      (Nat.le_of_eq (congrArg Marks.generation hmarks).symm)
  have renew : ∀ {s t : Session α σ n}, t.marks = s.marks.renewed → s.gear.Sane → t.gear.Sane :=
    fun {s _} hmarks h => h.later (congrArg Marks.factoredGeneration hmarks)
      (Nat.le_trans (Nat.le_succ s.work.generation)
        (Nat.le_of_eq (congrArg Marks.generation hmarks).symm))
  intro s
  refine (evaluateJacobian_after P x f s).mono (fun answer t _ h => ?_) fun _ t _ h => ?_
  · cases answer with
    | ok _ => exact renew h.1
    | error _ =>
      exact fun hs => hs.later (congrArg Marks.factoredGeneration h)
        (Nat.le_of_eq (congrArg Marks.generation h).symm)
  · exact h.elim keep fun h => renew h.1

/-! ## Blocks without a solve -/

/-- The session of a started block with a fresh workspace, in which bounds, scales of the unknowns and
the given pattern were put. -/
def Session.anew (P : Problem α σ n) (pattern : Option (Pattern n n)) (s : Session α σ n) :
    Session α σ n :=
  { s with
    work :=
      { Workspace.fresh n with
        box := Box.ofBounds s.lower s.upper P.options.stepLimitFactor
        variableScale := variableScales P.options.variableScaling s.nominal P.options.tolerance
        pattern
        ready := true } }

/-- A started block that has been set up, but whose solves all ended where they began. -/
structure Session.Unserved (P : Problem α σ n) (pattern : Option (Pattern n n)) (s : Session α σ n) :
    Prop where
  started : s.phase ≠ .untouched
  frame : ∃ singular recovery, (singular = false → recovery = RecoveryMode.regularization) ∧
    s.frame = (s.anew P pattern).frame.recovering singular recovery
  sane : s.gear.Sane

/-- Of the frame, the reference looks at the point, the bounds and the nominal values. -/
theorem Session.anew_frame {pattern : Option (Pattern n n)} (hlower : t.lower = s.lower)
    (hupper : t.upper = s.upper) (hnominal : t.nominal = s.nominal) :
    (t.anew P pattern).frame = { (s.anew P pattern).frame with
      core := { (s.anew P pattern).frame.core with x := t.x } } := by
  simp only [Session.frame, Session.core, Session.anew, hlower, hupper, hnominal]

namespace Session.Unserved
variable {pattern : Option (Pattern n n)}

/-- A change of the point and of the marks of a singular Jacobian, and of nothing else that counts. -/
theorem change (h : s.Unserved P pattern) {x : Vector α n} {singular : Bool} {recovery : RecoveryMode}
    (hphase : t.phase ≠ .untouched) (hrecovery : singular = false → recovery = .regularization)
    (hframe : t.frame = { s.frame with core := { s.frame.core with x, singular, recovery } })
    (hsane : t.gear.Sane) : t.Unserved P pattern := by
  have hx : t.x = x := congrArg (fun f => f.core.x) hframe
  have hlower : t.lower = s.lower := congrArg (fun f => f.core.lower) hframe
  have hupper : t.upper = s.upper := congrArg (fun f => f.core.upper) hframe
  have hnominal : t.nominal = s.nominal := congrArg (fun f => f.core.nominal) hframe
  obtain ⟨_, _, _, hs⟩ := h.frame
  refine ⟨hphase, ⟨singular, recovery, hrecovery, ?_⟩, hsane⟩
  rw [hframe, hs, anew_frame hlower hupper hnominal, hx]
  rfl

theorem keep (h : s.Unserved P pattern) (hphase : t.phase ≠ .untouched) (hframe : t.frame = s.frame)
    (hsane : t.gear.Sane) : t.Unserved P pattern := by
  obtain ⟨singular, recovery, hrecovery, hs⟩ := h.frame
  refine h.change (x := s.x) hphase hrecovery (hframe.trans ?_) hsane
  rw [hs]
  rfl

theorem moved (h : s.Unserved P pattern) {x : Vector α n} (hphase : t.phase ≠ .untouched)
    (hframe : t.frame = { s.frame with core := { s.frame.core with x } }) (hgear : t.gear = s.gear) :
    t.Unserved P pattern := by
  obtain ⟨singular, recovery, hrecovery, hs⟩ := h.frame
  refine h.change (x := x) hphase hrecovery (hframe.trans ?_) (hgear ▸ h.sane)
  rw [hs]
  rfl

theorem ready (h : s.Unserved P pattern) : s.work.ready = true := by
  obtain ⟨_, _, _, hs⟩ := h.frame
  exact congrArg Frame.ready hs

theorem accepted (h : s.Unserved P pattern) : s.work.accepted = none := by
  obtain ⟨_, _, _, hs⟩ := h.frame
  exact congrArg Frame.accepted hs

end Session.Unserved

/-! ## One operation after another -/

section
variable {pattern : Option (Pattern n n)}

/-- What keeps the frame and the order of generations keeps a block without a solve. -/
theorem follows_unserved {β : Type} {a : Action α σ n β}
    (hframe : Follows (fun s t => t.frame = s.frame) a)
    (hdrift : Follows (Drift P fun _ => ()) a)
    (hsane : Follows (fun s t => s.gear.Sane → t.gear.Sane) a) :
    Follows (fun s t => s.Unserved P pattern → t.Unserved P pattern) a := by
  have last : ∀ s t, t.frame = s.frame → Drift P (fun _ => ()) s t → (s.gear.Sane → t.gear.Sane) →
      s.Unserved P pattern → t.Unserved P pattern := fun s t hf hd hsane h =>
    h.keep (hd.onward.phase h.started) hf (hsane h.sane)
  intro s
  exact (hframe s).mono (fun _ t ht hf => last s t hf ((hdrift s).ok ht) ((hsane s).ok ht))
    fun _ t ht hf => last s t hf ((hdrift s).error ht) ((hsane s).error ht)

theorem unserved_evaluate (P : Problem α σ n) (x : Vector α n) :
    Follows (fun s t => s.Unserved P pattern → t.Unserved P pattern) (evaluate P x) := by
  refine follows_unserved ((closed_frame P true).residual x)
    ((closed_drift P fun _ => ()).residual x) fun s => ?_
  have hgear := (closed_still P true (fun s _ _ _ _ _ => rfl) (fun _ _ _ => rfl) :
    Closed P true Session.gear fun _ a => Follows (fun s t => t.gear = s.gear) a).residual x
  exact (hgear s).mono (fun _ t _ h hs => h ▸ hs) fun _ t _ h hs => h ▸ hs

theorem unserved_evaluateJacobian (P : Problem α σ n) (x f : Vector α n) :
    Follows (fun s t => s.Unserved P pattern → t.Unserved P pattern) (evaluateJacobian P x f) :=
  follows_unserved (frame_evaluateJacobian P x f)
    ((closed_drift P fun _ => ()).stage.spot.footing.evaluateJacobian x f)
    (sane_evaluateJacobian P x f)

/-- A workspace that is fresh, or that of a started block whose solves all ended where they began. -/
def Session.Waiting (P : Problem α σ n) (s : Session α σ n) : Prop :=
  s.work = Workspace.fresh n ∨ s.Unserved P (usablePattern? P s.model)

theorem Session.derived_anew (hwork : s.work = Workspace.fresh n) :
    s.derived P = s.anew P (usablePattern? P s.model) := by
  unfold Session.derived Session.anew
  rw [hwork]

theorem Session.derived_unserved (hwork : s.work = Workspace.fresh n)
    (hstarted : s.phase ≠ .untouched) : (s.derived P).Unserved P (usablePattern? P s.model) := by
  rw [Session.derived_anew hwork]
  exact ⟨hstarted, ⟨false, .regularization, fun _ => rfl, rfl⟩, nofun⟩

theorem unready_fresh (hwork : s.work = Workspace.fresh n) : s.work.ready = false := by
  rw [hwork]
  rfl

theorem setUp_waiting (hs : s.Waiting P) (hstarted : s.phase ≠ .untouched) :
    After (setUp P) s (fun _ t => t.Unserved P (usablePattern? P s.model)) fun _ _ => False := by
  unfold After
  obtain hwork | hunserved := hs
  · rw [setUp_unready P (unready_fresh hwork)]
    exact Session.derived_unserved hwork hstarted
  · rw [setUp_ready P hunserved.ready]
    exact hunserved

theorem startedJacobian_unserved (hs : s.Waiting P) (hstarted : s.phase ≠ .untouched) :
    After (startedJacobian P) s (fun _ t => t.Unserved P (usablePattern? P s.model))
      fun _ t => t.Unserved P (usablePattern? P s.model) := by
  unfold startedJacobian
  have hset : After (discard (setUp P) : Action α σ n Unit) s
      (fun _ t => t.Unserved P (usablePattern? P s.model))
      fun _ t => t.Unserved P (usablePattern? P s.model) :=
    ((setUp_waiting hs hstarted).mono (fun _ _ _ h => h) fun _ _ _ h => h.elim).bind
      fun _ _ h => h
  refine hset.bind fun _ t ht => ?_
  rw [after_congr (get_bind_apply _ _)]
  refine ((unserved_evaluate P t.x t).mono (fun _ _ _ h => h ht) fun _ _ _ h => h ht).bind
    fun answer u hu => ?_
  cases answer with
  | error mishap => exact hu
  | ok f =>
    dsimp only
    rw [after_congr (modifyWork_bind_apply _ _ _)]
    have hforced : Session.Unserved P (usablePattern? P s.model)
        { u with work := { u.work with flags.forceNewJacobian := true } } :=
      hu.keep hu.started rfl hu.sane
    refine ((unserved_evaluateJacobian P t.x f _).mono (fun _ _ _ h => h hforced)
      fun _ _ _ h => h hforced).bind fun status v hv => ?_
    cases status with
    | error mishap => exact hv
    | ok _ => exact hv

/-- A factorization changes the marks of a singular Jacobian, and nothing else that counts. -/
theorem factorize_unserved (hs : s.Unserved P pattern) :
    After factorize s (fun _ t => t.Unserved P pattern) fun _ _ => False := by
  obtain ⟨_, _, _, hframe⟩ := hs.frame
  have hpremarked : s.work.premarkedSingular = false :=
    congrArg (fun f => f.core.premarkedSingular) hframe
  have sane : ∀ {t : Session α σ n} {usable : Bool}, Refactored s.dated t usable → t.gear.Sane := by
    intro t usable ht k hk
    have hgeneration : t.work.generation = s.work.generation := congrArg Marks.generation ht.marks
    have hfactored : t.work.factoredGeneration = some s.work.generation :=
      congrArg Marks.factoredGeneration ht.marks
    cases hfactored.symm.trans hk
    exact Nat.le_of_eq hgeneration.symm
  have phase : ∀ {t : Session α σ n} {usable : Bool}, factorize s = .ok usable t →
      t.phase ≠ .untouched := fun ht =>
    (((closed_drift P fun _ => ()).stage.spot.footing.factorize).ok ht).onward.phase hs.started
  have hframes : After factorize s (fun _ t => ∃ singular recovery,
      (singular = false → recovery = RecoveryMode.regularization) ∧
        t.frame = s.frame.recovering singular recovery) fun _ _ => False := by
    unfold After
    obtain ⟨_, lu, _, hrun⟩ | ⟨_, notices, hrun⟩ := factorize_cases s
    · rw [hrun]
      refine ⟨false, .regularization, fun _ => rfl, ?_⟩
      simp only [Session.frame, Session.core, Frame.recovering, Workspace.withFactors, hpremarked]
    · rw [hrun]
      refine ⟨true, (standIn s.work.remedy s.work).recovery, nofun, ?_⟩
      simp only [Session.frame, Session.core, Frame.recovering, Workspace.recovered,
        Workspace.replaced, hpremarked]
  refine hframes.mono (fun usable t ht ⟨_, _, hrecovery, hnew⟩ => ?_) fun _ _ _ h => h
  exact hs.change (phase ht) hrecovery hnew (sane ((factorize_after s).ok ht))

end

/-! ## What is asked before the first solve -/

/-- A model whose answers and whose pattern are functions of the request and of a view of its
state. -/
structure Foreseen (model : Model α σ n) (view : σ → ν) : Prop extends Determined model view where
  pattern : ∀ s t, view s = view t → model.pattern s = model.pattern t

variable {view : σ → ν}

theorem Session.Unserved.drifted (hmodel : Foreseen P.model view) (hs : s.phase ≠ .untouched)
    (hst : Drift P view s t) (h : t.Unserved P (usablePattern? P s.model)) :
    t.Unserved P (usablePattern? P t.model) := by
  have hpattern := hmodel.pattern _ _ (hst.view hmodel.toDetermined hs)
  have hsame : usablePattern? P t.model = usablePattern? P s.model := by
    unfold usablePattern?
    rw [hpattern]
  rw [hsame]
  exact h

theorem prepareUnknowns_waiting (hs : s.Waiting P) :
    After (prepareUnknowns P) s (fun _ t => t.phase ≠ .untouched ∧ t.Waiting P)
      fun _ t => t.Waiting P := by
  have hwork : s.phase = .untouched → s.work = Workspace.fresh n := fun hphase =>
    hs.resolve_right fun h => h.started hphase
  exact after_prepareUnknowns (fun hphase => ⟨hphase, hs⟩)
    (fun _ _ hphase _ _ => ⟨Phase.noConfusion, .inl (hwork hphase)⟩)
    fun _ _ hphase _ => .inl (hwork hphase)

/-- A new point, and marks that say that it was given or that the solve is over. -/
theorem Session.Waiting.moved (h : s.Waiting P) {x : Vector α n} {phase : Phase}
    (hphase : phase ≠ .untouched) {counters : Counters} {atEvent guessGiven : Bool}
    {notices : Array (Notice α)} {bracket : Bracket α} :
    Session.Waiting P
      { s with x, phase, counters, atEvent, guessGiven, notices, bracket } := by
  obtain hwork | hunserved := h
  · exact .inl hwork
  · exact .inr (hunserved.moved hphase rfl rfl)

theorem setPointAction_waiting (hs : s.Waiting P) (x : Array α) :
    After (setPointAction P x) s (fun _ t => t.Waiting P) fun _ t => t.Waiting P :=
  after_setPointAction (fun _ => hs) fun _ =>
    (prepareUnknowns_waiting hs).mono (fun _ _ _ ht => ht.2.moved ht.1) fun _ _ _ => id

theorem freshJacobian_waiting (hmodel : Foreseen P.model view) (hs : s.Waiting P) :
    After (freshJacobian P) s (fun _ t => t.Unserved P (usablePattern? P t.model))
      fun _ t => t.Waiting P := by
  rw [freshJacobian_eq]
  refine (prepareUnknowns_waiting hs).bind fun _ t ⟨hstarted, ht⟩ => ?_
  have hdrift := (routine_drift P view).startedJacobian t
  refine (startedJacobian_unserved ht hstarted).mono (fun _ u hu h => ?_) fun _ u hu h => .inr ?_
  · exact h.drifted hmodel hstarted (hdrift.ok hu)
  · exact h.drifted hmodel hstarted (hdrift.error hu)

theorem jacobianAction_waiting (hmodel : Foreseen P.model view) (hs : s.Waiting P) :
    After (jacobianAction P) s (fun _ t => t.Waiting P) fun _ t => t.Waiting P := by
  unfold jacobianAction
  exact (freshJacobian_waiting hmodel hs).bind fun _ t ht => .inr ht

theorem factorizeAction_waiting (hmodel : Foreseen P.model view) (hs : s.Waiting P) :
    After (factorizeAction P) s (fun _ t => t.Waiting P) fun _ t => t.Waiting P := by
  have hdrift := (closed_drift P view).stage.spot.footing.factorize
  unfold factorizeAction
  refine (freshJacobian_waiting hmodel hs).bind fun _ t ht => ?_
  have hfactored : After factorize t (fun _ u => u.Waiting P) fun _ u => u.Waiting P :=
    (factorize_unserved ht).mono
      (fun _ _ hu h => .inr (h.drifted hmodel ht.started ((hdrift t).ok hu))) fun _ _ _ h => h.elim
  refine hfactored.bind fun usable u hu => ?_
  cases usable with
  | true => exact hu
  | false => exact hu

/-! ## Solves that are refused where they begin -/

/-- The residual is undefined where the solve begins. -/
def Halt.Refuses (halt : Halt α) : Prop := ∃ mishap, halt = .fault (.initialEvaluation mishap)

omit [Scalar α] in
theorem alien_refuses : Alien (Halt.Refuses (α := α)) := ⟨fun _ _ => nofun, nofun⟩

/-- A session after requests that changed nothing but the model's own state, and of that nothing that is
viewed. -/
def Requested (view : σ → ν) (s t : Session α σ n) : Prop :=
  ∃ model notices calls, view model = view s.model ∧ t = { s with model, notices, calls }

theorem Session.Waiting.requested (hmodel : Foreseen P.model view) (h : s.Waiting P)
    (hstarted : s.phase ≠ .untouched) (hst : Requested view s t) :
    t.phase ≠ .untouched ∧ t.Waiting P := by
  obtain ⟨model, notices, calls, hview, rfl⟩ := hst
  refine ⟨hstarted, h.imp id fun hs => ?_⟩
  have hsame : usablePattern? P model = usablePattern? P s.model := by
    unfold usablePattern?
    rw [hmodel.pattern _ _ hview]
  rw [hsame]
  exact hs.keep hstarted rfl hs.sane

omit [Scalar α] in
theorem updateAuxiliary_requested (hP : Determined P.model view) (x : Vector α n) :
    Follows (Requested view) (updateAuxiliary P x) :=
  follows_updateAuxiliary fun s _ => ⟨_, _, _, (hP.evaluateAuxiliary x).keeps s.model, rfl⟩

theorem prelude_waiting (hmodel : Foreseen P.model view) (hs : s.Waiting P) :
    After (prelude P) s (fun _ t => t.phase ≠ .untouched ∧ t.Waiting P) fun _ t => t.Waiting P := by
  have hcounted : Session.Waiting P { s with counters.solves := s.counters.solves + 1 } :=
    hs.imp id fun h => h.keep h.started rfl h.sane
  unfold prelude
  rw [after_congr (modify_bind_apply _ _ _)]
  refine (prepareUnknowns_waiting hcounted).bind fun _ t ⟨hstarted, ht⟩ => ?_
  have hu : Session.Waiting P { t with x := startingPoint P t } := ht.moved hstarted
  rw [after_congr (approach_apply P t)]
  split
  · exact (updateAuxiliary_requested hmodel.toDetermined _ _).mono
      (fun _ _ _ h => hu.requested hmodel hstarted h) fun _ _ _ h => (hu.requested hmodel hstarted h).2
  · exact ⟨hstarted, hu⟩

theorem checkStartingPoint_unserved {pattern : Option (Pattern n n)} (hs : s.Unserved P pattern) :
    After (checkStartingPoint P) s (fun _ t => t.Unserved P pattern)
      fun _ t => t.Unserved P pattern := by
  have hcheck : Follows (fun s t => s.Unserved P pattern → t.Unserved P pattern)
      (checkStartingPoint P) :=
    follows_checkStartingPoint (fun _ => id) (fun _ _ _ hst htu hs => htu (hst hs))
      (fun x => unserved_evaluate P x) (fun _ _ hs => hs.moved hs.started rfl rfl)
      fun _ _ hs => hs.keep hs.started rfl hs.sane
  exact (hcheck s).mono (fun _ _ _ h => h hs) fun _ _ _ h => h hs

theorem shuns_afterOpening (P : Problem α σ n) (first : Bool) :
    Shuns Halt.Refuses (afterOpening P first) := by
  have hC := setting_shuns alien_refuses.fatal P
  have hsearch := shuns_lineSearch alien_refuses P
  have hwrite : Shuns Halt.Refuses (writeBack P) := fun _ =>
    after_writeBack (fun _ _ => alien_refuses.fatal _ _) (fun _ _ => alien_refuses.fatal _ _)
      fun _ => trivial
  have hclose : ∀ standing, Shuns Halt.Refuses (closeSolve P standing) := by
    refine fun standing => hwrite.bind fun _ s => ?_
    unfold After
    cases standing.attempt.failure with
    | none => trivial
    | some reason => exact nofun
  rw [afterOpening_eq]
  have hfirst := hC.firstAttempt (fun _ hf => shuns_read hf) hsearch
  refine (((hfirst.bind fun standing => ?_).bind fun standing => ?_).bind fun standing => ?_).bind
    hclose
  · exact hC.stage.tryDescent hsearch standing
  · exact hC.tryRescaled hsearch first standing
  · exact shuns_tryNominal alien_refuses P standing

/-- A solve that is refused leaves a block that has been set up. -/
theorem solveDamped_refused (hs : s.Waiting P) (hstarted : s.phase ≠ .untouched) :
    After (solveDamped P) s (fun _ _ => True)
      fun halt t => halt.Refuses → t.Unserved P (usablePattern? P s.model) := by
  have shunned : ∀ {β : Type} {a : Action α σ n β} {u : Session α σ n}, Shuns Halt.Refuses a →
      After a u (fun _ _ => True)
        fun halt t => halt.Refuses → t.Unserved P (usablePattern? P s.model) :=
    fun ha => (ha _).mono (fun _ _ _ h => h) fun _ _ _ h hrefuses => absurd hrefuses h
  have hopen : After (openSolve P) s (fun _ _ => True)
      fun halt t => halt.Refuses → t.Unserved P (usablePattern? P s.model) := by
    obtain hwork | hunserved := hs
    · rw [after_congr (openSolve_unready P (unready_fresh hwork))]
      have hderived := Session.derived_unserved (P := P) hwork hstarted
      have hemptied := hderived.keep (t := (s.derived P).emptied) hstarted rfl hderived.sane
      have hchecked : After (checkStartingPoint P) (s.derived P).emptied (fun _ _ => True)
          fun halt t => halt.Refuses → t.Unserved P (usablePattern? P s.model) :=
        (checkStartingPoint_unserved hemptied).mono (fun _ _ _ _ => trivial) fun _ _ _ h _ => h
      exact hchecked.bind fun _ _ _ => shunned (shuns_settlePoint alien_refuses P true)
    · rw [after_congr
        (openSolve_stays hunserved.ready (resumed?_of_accepted hunserved.accepted))]
      exact shunned (shuns_settlePoint alien_refuses P false)
  rw [solveDamped_eq]
  exact hopen.bind fun first _ _ => shunned (shuns_afterOpening P first)

theorem solveAction_refused (hmodel : Foreseen P.model view) (hdamped : P.options.method = .damped)
    (hs : s.Waiting P) :
    After (solveAction P) s (fun _ _ => True) fun halt t => halt.Refuses → t.Waiting P := by
  have hprelude : After (prelude P) s (fun _ t => t.phase ≠ .untouched ∧ t.Waiting P)
      fun halt t => halt.Refuses → t.Waiting P :=
    (prelude_waiting hmodel hs).mono (fun _ _ _ h => h) fun _ _ _ h _ => h
  rw [solveAction_eq]
  refine hprelude.bind fun _ t ⟨hstarted, ht⟩ => ?_
  have hdrift := (routine_drift P view).byMethod (settles_drift P view) (closed_drift P view) t
  rw [solveByMethod_damped hdamped] at hdrift ⊢
  rw [after_thenAlways]
  refine (solveDamped_refused ht hstarted).mono (fun _ _ _ h => h) fun halt u hu h hrefuses => ?_
  have hdrifted := (h hrefuses).drifted hmodel hstarted (hdrift.error hu)
  exact .inr (hdrifted.keep hdrifted.started rfl hdrifted.sane)

/-- What is asked of a block before one of its solves gets past its start. -/
inductive Unsolved (b₀ : Block α σ n) : Block α σ n → Prop where
  | begin : Unsolved b₀ b₀
  | setPoint {b : Block α σ n} (x : Array α) : Unsolved b₀ b → Unsolved b₀ (b.setPoint x).2
  | evaluateJacobian {b : Block α σ n} : Unsolved b₀ b → Unsolved b₀ b.evaluateJacobian.2
  | factorizeJacobian {b : Block α σ n} : Unsolved b₀ b → Unsolved b₀ b.factorizeJacobian.2
  | refused {b : Block α σ n} {mishap : Mishap} : Unsolved b₀ b →
      b.solve.1 = .error (.fault (.initialEvaluation mishap)) → Unsolved b₀ b.solve.2

theorem Unsolved.waiting {b₀ b : Block α σ n} (h : Unsolved b₀ b)
    (hmodel : Foreseen b₀.problem.model view) (hdamped : b₀.problem.options.method = .damped)
    (hfresh : b₀.session.work = Workspace.fresh n) :
    b.problem = b₀.problem ∧ b.session.Waiting b₀.problem := by
  induction h with
  | begin => exact ⟨rfl, .inl hfresh⟩
  | setPoint x _ ih =>
    obtain ⟨hproblem, hwaiting⟩ := ih
    refine ⟨(Block.perform_problem _ _).trans hproblem, Block.perform_after ?_⟩
    rw [hproblem]
    exact setPointAction_waiting hwaiting x
  | evaluateJacobian _ ih =>
    obtain ⟨hproblem, hwaiting⟩ := ih
    refine ⟨(Block.perform_problem _ _).trans hproblem, Block.perform_after ?_⟩
    rw [hproblem]
    exact jacobianAction_waiting hmodel hwaiting
  | factorizeJacobian _ ih =>
    obtain ⟨hproblem, hwaiting⟩ := ih
    refine ⟨(Block.perform_problem _ _).trans hproblem, Block.perform_after ?_⟩
    rw [hproblem]
    exact factorizeAction_waiting hmodel hwaiting
  | @refused b mishap _ hrefused ih =>
    obtain ⟨hproblem, hwaiting⟩ := ih
    refine ⟨(Block.perform_problem _ _).trans hproblem, ?_⟩
    have hrun := solveAction_refused hmodel hdamped hwaiting
    rw [← hproblem] at hrun
    have hends : ∀ halt, b.solve.1 = .error halt → halt.Refuses →
        b.solve.2.session.Waiting b.problem :=
      Block.perform_ends (Q := fun r t => ∀ halt, r = .error halt → halt.Refuses →
        t.Waiting b.problem) (hrun.mono (fun _ _ _ _ _ => nofun) fun _ _ _ h _ heq => by
          cases heq
          exact h)
    rw [← hproblem]
    exact hends _ hrefused ⟨mishap, rfl⟩

end

end AlgebraicLoop
