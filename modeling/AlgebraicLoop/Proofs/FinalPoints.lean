import AlgebraicLoop.Proofs.FatalCalls
import AlgebraicLoop.Proofs.Rewind
import AlgebraicLoop.Proofs.Success

/-!
# The point that a solve leaves

A solve comes to a verdict when it succeeds or reports that it did not converge. The point it leaves
then is the one it started from, or one where it found the residual to be defined. There is one
exception: a restart from the nominal values leaves them to the block also where the residual turns
out to be undefined there.

* `verdict?`: the norm and the reason that a verdict carries;
* `solveDamped_verdict`: the phases of a solve that comes to a verdict;
* `runDamped_leaves`: what an attempt leaves;
* `Session.departure`, `Stands`: where the attempts of a solve start, and what is known of the point
  between them;
* `solve_leaves_defined`: the point that a verdict is about.
-/

namespace AlgebraicLoop
set_option autoImplicit false

section
variable {α σ : Type} {n : Nat}

/-! ## Calls between sessions -/

theorem mem_callsSince_later {s t u : Session α σ n} {c : Call α n} (h : c ∈ callsSince s t)
    (hst : t.calls.toList = s.calls.toList ++ callsSince s t)
    (htu : u.calls.toList = t.calls.toList ++ callsSince t u) : c ∈ callsSince s u := by
  rw [callsSince_trans hst htu]
  exact List.mem_append_left _ h

theorem mem_callsSince_earlier {s t u : Session α σ n} {c : Call α n} (h : c ∈ callsSince t u)
    (hst : t.calls.toList = s.calls.toList ++ callsSince s t)
    (htu : u.calls.toList = t.calls.toList ++ callsSince t u) : c ∈ callsSince s u := by
  rw [callsSince_trans hst htu]
  exact List.mem_append_right _ h

/-! ## Verdicts -/

/-- The residual norm that a success or a report of failure carries, and why the solve stopped short.
-/
def verdict? : Except (Halt α) (Report α) → Option (α × Option FailureReason)
  | .ok report => some (report.residualNorm, none)
  | .error (.fault (.unconverged details)) => some (details.residualNorm, some details.reason)
  | .error _ => none

/-- An action that never halts in one of the given ways. -/
def Shuns {β : Type} (bad : Halt α → Prop) (a : Action α σ n β) : Prop :=
  ∀ s, After a s (fun _ _ => True) fun halt _ => ¬ bad halt

/-- Ways to halt that the attempts of a solve do not know. -/
structure Alien (bad : Halt α → Prop) : Prop where
  fatal : ∀ request reason, ¬ bad (.fault (.modelFatal request reason))
  limits : ¬ bad .limitsOutOfOrder

/-- The report of a failure to converge. -/
def Halt.Decides (halt : Halt α) : Prop := ∃ details, halt = .fault (.unconverged details)

theorem alien_decides : Alien (Halt.Decides (α := α)) := ⟨fun _ _ => nofun, nofun⟩

variable {bad : Halt α → Prop}

theorem Shuns.bind {β γ : Type} {a : Action α σ n β} {f : β → Action α σ n γ}
    (ha : Shuns bad a) (hf : ∀ v, Shuns bad (f v)) : Shuns bad (a >>= f) := by
  intro s
  rw [after_bind]
  exact (ha s).mono (fun v t _ _ => hf v t) fun _ _ _ h => h

theorem shuns_pure {β : Type} (v : β) : Shuns bad (pure v : Action α σ n β) := fun _ => trivial

theorem shuns_modify (g : Session α σ n → Session α σ n) :
    Shuns bad (modify g : Action α σ n Unit) := fun _ => trivial

theorem shuns_read {β : Type} {f : Session α σ n → Action α σ n β} (hf : ∀ s, Shuns bad (f s)) :
    Shuns bad (get >>= f) := fun s => hf s s

theorem shuns_request (hfatal : ∀ request reason, ¬ bad (.fault (.modelFatal request reason)))
    {β : Type} (request : Answer σ β) (kind : Request) (record : Except EvalFailure β → Call α n) :
    Shuns bad (ask request record >>= settleAnswer kind) := fun _ =>
  after_request (fun _ _ => hfatal _ _) (fun _ _ => trivial) fun _ _ => trivial

end

section
variable {α σ : Type} [Scalar α] {n : Nat} {bad : Halt α → Prop}

theorem shuns_evaluate (hfatal : ∀ request reason, ¬ bad (.fault (.modelFatal request reason)))
    (P : Problem α σ n) (x : Vector α n) : Shuns bad (evaluate P x) := fun _ =>
  after_evaluate (fun _ _ => hfatal _ _) (fun _ _ => trivial) (fun _ _ _ _ => trivial)
    fun _ _ _ => trivial

/-- No part of a solve but its line searches and its nominal restarts halts in a way of its own. -/
theorem setting_shuns (hfatal : ∀ request reason, ¬ bad (.fault (.modelFatal request reason)))
    (P : Problem α σ n) :
    Closed P true (Session.setting P) fun _ a => Shuns bad a where
  value := shuns_pure
  seq ha hf := ha.bind hf
  read _ hf := shuns_read hf
  residualNominals _ hf := shuns_read hf
  update _ := shuns_modify _
  notice _ := shuns_modify _
  residual := shuns_evaluate hfatal P
  written _ _ _ _ _ := shuns_read fun _ => shuns_modify _
  jacobian _ _ _ _ := shuns_request hfatal _ _ _
  directional _ _ _ _ := shuns_request hfatal _ _ _
  auxiliary _ _ :=
    after_updateAuxiliary (fun _ _ => hfatal _ _) (fun _ _ => trivial) fun _ => trivial
  limit _ _ _ := trivial

theorem shuns_lineSearch (hbad : Alien bad) (P : Problem α σ n) (x f step : Vector α n)
    (length tol : α) : Shuns bad (lineSearch P x f step length tol) :=
  (setting_shuns hbad.fatal P).lineSearch (fun _ => hbad.limits) x f step length tol

theorem shuns_restartFromNominal (hbad : Alien bad) (P : Problem α σ n) :
    Shuns bad (restartFromNominal P) := by
  refine shuns_read fun s => ?_
  split
  · exact shuns_modify _
  · exact fun _ => hbad.limits

theorem shuns_tryNominal (hbad : Alien bad) (P : Problem α σ n) (standing : Standing α) :
    Shuns bad (tryNominal P standing) :=
  (setting_shuns hbad.fatal P).stage.tryNominal (shuns_lineSearch hbad P)
    (shuns_restartFromNominal hbad P) standing

theorem shuns_checkStartingPoint (hbad : Alien bad)
    (hstart : ∀ mishap, ¬ bad (.fault (.initialEvaluation mishap))) (P : Problem α σ n) :
    Shuns bad (checkStartingPoint P) := by
  refine shuns_read fun s => (shuns_evaluate hbad.fatal P s.x).bind fun answer => ?_
  cases answer with
  | ok _ => exact shuns_pure _
  | error mishap =>
    dsimp only
    split
    · refine (shuns_restartFromNominal hbad P).bind fun _ => ?_
      refine (shuns_modify _).bind fun _ => shuns_read fun t => ?_
      refine (shuns_evaluate hbad.fatal P t.x).bind fun answer => ?_
      cases answer with
      | ok _ => exact shuns_pure _
      | error mishap => exact fun _ => hstart mishap
    · exact fun _ => hstart mishap

omit [Scalar α] in
theorem shuns_startFromAccepted (P : Problem α σ n) : Shuns bad (startFromAccepted P) := by
  refine shuns_read fun s => ?_
  split
  · split
    · exact shuns_modify _
    · exact shuns_pure _
  · exact shuns_pure _

theorem shuns_settlePoint (hbad : Alien bad) (P : Problem α σ n)
    (first : Bool) : Shuns bad (settlePoint P first) := by
  refine (shuns_modify _).bind fun _ => shuns_read fun s => ?_
  split
  · exact (setting_shuns hbad.fatal P).stage.spot.updateResidualScales.bind fun _ => shuns_pure _
  · exact shuns_pure _

theorem shuns_openSolve (hbad : Alien bad)
    (hstart : ∀ mishap, ¬ bad (.fault (.initialEvaluation mishap))) (P : Problem α σ n) :
    Shuns bad (openSolve P) := by
  have hsetUp : Shuns bad (setUp P) := by
    refine shuns_read fun s => ?_
    split
    · exact shuns_pure _
    · exact (shuns_modify _).bind fun _ => shuns_pure _
  refine hsetUp.bind fun first => (shuns_modify _).bind fun _ => ?_
  split
  · exact (shuns_checkStartingPoint hbad hstart P).bind fun _ => shuns_settlePoint hbad P first
  · exact (shuns_startFromAccepted P).bind fun _ => shuns_settlePoint hbad P first

/-! ## The close of a solve -/

/-- The result and the session that a computation comes to. -/
def resultOf {β : Type} : EStateM.Result (Halt α) (Session α σ n) β → Except (Halt α) β × Session α σ n
  | .ok v t => (.ok v, t)
  | .error halt t => (.error halt, t)

/-- The session that a solve closed by a verdict leaves. -/
structure Closing (P : Problem α σ n) (s t : Session α σ n) : Prop where
  x : t.x = s.x
  given : t.given = s.given
  scale : t.work.residualScale = s.work.residualScale
  calls : t.calls = s.calls.push (.writeBack s.x (.ok ()))
  bracket : t.bracket = s.bracket

theorem Closing.trail {P : Problem α σ n} {s t : Session α σ n} (h : Closing P s t) : Trail s t :=
  Course.of_call h.calls h.bracket rfl

omit [Scalar α] in
/-- A verdict carries what the last attempt came to, and the point was handed to the model. -/
theorem closeSolve_verdict {P : Problem α σ n} {standing : Standing α} {s t : Session α σ n}
    {r : Except (Halt α) (Report α)} {v : α × Option FailureReason}
    (h : resultOf (closeSolve P standing s) = (r, t)) (hr : verdict? r = some v) :
    v = (standing.attempt.record.residualNorm, standing.attempt.failure) ∧ Closing P s t := by
  unfold closeSolve writeBack at h
  rw [bind_assoc, get_bind_apply, bind_assoc, ask_bind_apply] at h
  cases hanswer : (P.model.writeBack s.x s.model).1 with
  | error failure =>
    rw [hanswer] at h
    cases failure with
    | recoverable _ =>
      cases h
      cases hr
    | fatal _ =>
      cases h
      cases hr
  | ok _ =>
    rw [hanswer] at h
    dsimp only at h
    rw [pure_bind_apply] at h
    cases hfailure : standing.attempt.failure with
    | none =>
      rw [hfailure] at h
      cases h
      cases hr
      exact ⟨rfl, rfl, rfl, rfl, rfl, rfl⟩
    | some reason =>
      rw [hfailure] at h
      cases h
      cases hr
      exact ⟨rfl, rfl, rfl, rfl, rfl, rfl⟩

omit [Scalar α] in
/-- A verdict of a sequence that starts without one is one of what follows. -/
theorem Shuns.verdict {β : Type} {a : Action α σ n β} {f : β → Action α σ n (Report α)}
    {s t : Session α σ n} {r : Except (Halt α) (Report α)} {v : α × Option FailureReason}
    (ha : Shuns Halt.Decides a) (h : resultOf ((a >>= f) s) = (r, t)) (hr : verdict? r = some v) :
    ∃ w u, a s = .ok w u ∧ resultOf (f w u) = (r, t) := by
  rw [bind_apply] at h
  cases hrun : a s with
  | ok w u =>
    rw [hrun] at h
    exact ⟨w, u, rfl, h⟩
  | error halt u =>
    rw [hrun] at h
    cases h
    have hnot := (ha s).error hrun
    match halt, hnot, hr with
    | .fault (.unconverged details), hnot, _ => exact absurd ⟨details, rfl⟩ hnot

/-- The solve by the damped method that begins in `u` comes to a verdict: its phases, and the session
it leaves. -/
inductive Judged (P : Problem α σ n) (u t : Session α σ n) : α × Option FailureReason → Prop
  | closed {first : Bool} {opened opening rescaled final : Standing α}
      {s₁ s₂ s₃ s₄ s₅ : Session α σ n} :
      openSolve P u = .ok first s₁ → firstAttempt P s₁ = .ok opened s₂ →
      tryDescent P opened s₂ = .ok opening s₃ → tryRescaled P first opening s₃ = .ok rescaled s₄ →
      tryNominal P rescaled s₄ = .ok final s₅ → Closing P s₅ t →
      Judged P u t (final.attempt.record.residualNorm, final.attempt.failure)

theorem solveDamped_verdict {P : Problem α σ n} {u t : Session α σ n}
    {r : Except (Halt α) (Report α)} {v : α × Option FailureReason}
    (h : resultOf (solveDamped P u) = (r, t)) (hr : verdict? r = some v) : Judged P u t v := by
  have hC := setting_shuns alien_decides.fatal P
  have hsearch := shuns_lineSearch alien_decides P
  obtain ⟨first, s₁, hopen, h⟩ := (shuns_openSolve alien_decides (fun _ => nofun) P).verdict h hr
  obtain ⟨opened, s₂, hfirst, h⟩ :=
    Shuns.verdict (hC.firstAttempt (fun _ hf => shuns_read hf) hsearch) h hr
  obtain ⟨opening, s₃, hdescent, h⟩ := Shuns.verdict (hC.stage.tryDescent hsearch _) h hr
  obtain ⟨rescaled, s₄, hrescaled, h⟩ := Shuns.verdict (hC.tryRescaled hsearch _ _) h hr
  obtain ⟨final, s₅, hfinal, h⟩ := (shuns_tryNominal alien_decides P _).verdict h hr
  obtain ⟨rfl, hclosing⟩ := closeSolve_verdict h hr
  exact .closed hopen hfirst hdescent hrescaled hfinal hclosing

/-- A solve that comes to a verdict did so in its damped method, after its prelude. -/
theorem solve_verdict {b b' : Block α σ n} {r : Except (Halt α) (Report α)}
    {v : α × Option FailureReason} (hmethod : b.problem.options.method = .damped)
    (h : b.solve = (r, b')) (hr : verdict? r = some v) :
    ∃ u t, prelude b.problem b.session = .ok () u ∧ Judged b.problem u t v ∧
      b' = { b with session := t.unmarked } := by
  unfold Block.solve Block.perform at h
  rw [solveAction_eq, bind_apply] at h
  cases hprelude : prelude b.problem b.session with
  | error halt t =>
    rw [hprelude] at h
    cases h
    have hnot := (prelude_leaves_started b.problem b.session).error hprelude
    match halt, hnot, hr with
    | .fault (.unconverged details), hnot, _ => exact absurd rfl (hnot details)
  | ok _ u =>
    rw [hprelude] at h
    unfold thenAlways solveByMethod at h
    rw [hmethod] at h
    dsimp only at h
    cases hrun : solveDamped b.problem u with
    | ok report t =>
      rw [hrun] at h
      cases h
      exact ⟨u, t, rfl, solveDamped_verdict (by rw [hrun]; rfl) hr, rfl⟩
    | error halt t =>
      rw [hrun] at h
      cases h
      exact ⟨u, t, rfl, solveDamped_verdict (by rw [hrun]; rfl) hr, rfl⟩

/-! ## What an attempt leaves -/

theorem undefined_of_error {P : Problem α σ n} {x : Vector α n} {s t : Session α σ n}
    {mishap : Mishap} (h : evaluate P x s = .ok (.error mishap) t) : Undefined s t x :=
  ((evaluate_after P x s).ok h).2 rfl

/-- An attempt that accepted no point could not evaluate the residual where it began. -/
theorem Walk.of_nil {P : Problem α σ n} {tol : Tolerances α} {descent : Bool} {k : Nat}
    {progress : Progress α n} {s u : Session α σ n}
    (h : Walk P tol descent s k [] progress u) :
    progress = .over (RunRecord.empty.stopped .initialEvaluation) ∧
      ∃ mishap, evaluate P s.x s.cleared = .ok (.error mishap) u := by
  have goes_nowhere : ∀ {k : Nat} {f : Vector α n} {norm : α} {record : RunRecord α}
      {v : Session α σ n}, ¬ Walk P tol descent s k [] (.onward f norm record) v := by
    intro k f norm record v hwalk
    obtain ⟨_, hhead⟩ := hwalk.known.last f norm record rfl
    cases hhead
  cases h with
  | undefined hf => exact ⟨rfl, _, hf⟩
  | exhausted hwalk _ => exact absurd hwalk goes_nowhere
  | gaveUp hwalk _ _ => exact absurd hwalk goes_nowhere
  | stays hwalk _ _ _ _ => exact absurd hwalk goes_nowhere

/-- An attempt leaves a point where it found the residual to be defined, unless the residual was
undefined at the point it was given. -/
theorem runDamped_leaves {P : Problem α σ n} {tol : Tolerances α} {descent : Bool}
    {s t : Session α σ n} {attempt : Attempt α} (h : runDamped P tol descent s = .ok attempt t) :
    (attempt = RunRecord.empty.stopped .initialEvaluation ∧ t.x = s.x ∧ Undefined s t t.x) ∨
      ∃ f, Evaluated s t t.x f := by
  obtain ⟨k, path, hwalk⟩ := runDamped_eq_ok.1 h
  cases path with
  | nil =>
    obtain ⟨hover, mishap, hf⟩ := hwalk.of_nil
    cases hover
    have hx : t.x = s.x := hwalk.known.at_point
    refine .inl ⟨rfl, hx, ?_⟩
    rw [hx]
    exact (undefined_of_error hf : Undefined s.cleared t s.x)
  | cons p path =>
    have hx : t.x = p.x := hwalk.known.at_point
    refine .inr ⟨p.f, ?_⟩
    rw [hx]
    exact hwalk.known.evaluated p (List.mem_cons_self ..)

/-! ## The point between the phases of a solve -/

/-- The point where the attempts of a solve start: the accepted outer step, where the options ask for
it and nothing speaks against it. -/
def Session.departure (P : Problem α σ n) (s : Session α σ n) : Vector α n :=
  if s.work.ready ∧ P.options.startFromAccepted ∧ !s.atEvent ∧ !s.guessGiven then
    (s.work.accepted.map Checkpoint.x).getD s.x
  else s.x

omit [Scalar α] in
theorem Session.departure_eq (P : Problem α σ n) (s : Session α σ n) :
    s.departure P = ((resumed? P s).map Checkpoint.x).getD s.x := by
  unfold Session.departure resumed?
  by_cases hback : P.options.startFromAccepted ∧ s.work.ready ∧ !s.atEvent ∧ !s.guessGiven
  · rw [if_pos hback, if_pos ⟨hback.2.1, hback.1, hback.2.2⟩]
  · rw [if_neg hback, if_neg fun h => hback ⟨h.2.1, h.1, h.2.2⟩]
    rfl

/-- The second session is at the given point, or at one where the residual was found to be defined
since the first session. -/
def Stands (x : Vector α n) (s t : Session α σ n) : Prop := t.x = x ∨ ∃ f, Evaluated s t t.x f

theorem Stands.keep {x : Vector α n} {s t u : Session α σ n} (h : Stands x s t) (hst : Trail s t)
    (htu : Trail t u) (hx : u.x = t.x) : Stands x s u := by
  obtain h | ⟨f, hf⟩ := h
  · exact .inl (hx.trans h)
  · refine .inr ⟨f, ?_⟩
    rw [hx]
    exact hf.later hst.calls htu.calls

/-- What an attempt leaves stands where the attempt began to stand. -/
theorem Stands.run {P : Problem α σ n} {tol : Tolerances α} {descent : Bool} {x : Vector α n}
    {s t u : Session α σ n} {attempt : Attempt α} (h : Stands x s t) (hst : Trail s t)
    (hrun : runDamped P tol descent t = .ok attempt u) : Stands x s u := by
  have htu := ((course_runDamped P _ _).ok hrun).trail
  obtain ⟨_, hx, _⟩ | ⟨f, hf⟩ := runDamped_leaves hrun
  · exact h.keep hst htu hx
  · exact .inr ⟨f, hf.earlier hst.calls htu.calls⟩

/-- A starting point that passed its check is the one that was given, or the residual was found to
be defined there. -/
theorem checkStartingPoint_stands {P : Problem α σ n} {s t : Session α σ n}
    (h : checkStartingPoint P s = .ok () t) : Trail s t ∧ Stands s.x s t := by
  refine ⟨((routine_course P).checkStartingPoint.ok h).trail, ?_⟩
  unfold checkStartingPoint at h
  rw [get_bind_apply] at h
  obtain ⟨answer, u, hu, h⟩ := bind_eq_ok.1 h
  have hux : u.x = s.x := ((course_evaluate P s.x).ok hu).point
  cases answer with
  | ok f =>
    cases h
    exact .inl hux
  | error mishap =>
    have hsu := ((course_evaluate P s.x).ok hu).trail
    dsimp only at h
    split at h
    · obtain ⟨_, v, hv, h⟩ := bind_eq_ok.1 h
      have huv := ((routine_course P).restartFromNominal.ok hv).trail
      rw [notify_bind_apply, get_bind_apply] at h
      obtain ⟨answer, w, hw, h⟩ := bind_eq_ok.1 h
      cases answer with
      | error _ => cases h
      | ok f =>
        cases h
        have hvw := (course_evaluate P _).ok hw
        have hnotice : Trail v { v with notices := v.notices.push (.guessUndefined mishap) } :=
          Course.of_eq rfl rfl rfl
        refine .inr ⟨f, ?_⟩
        rw [hvw.point]
        exact (evaluated_of_ok hw).earlier ((hsu.trans huv).trans hnotice).calls hvw.calls
    · cases h

theorem settlePoint_stays {P : Problem α σ n} {first first' : Bool} {s t : Session α σ n}
    (h : settlePoint P first s = .ok first' t) : Trail s t ∧ t.x = s.x := by
  rw [settlePoint_apply] at h
  have hmark : Trail s s.unpinned := Course.of_eq rfl rfl rfl
  split at h
  · obtain ⟨_, u, hu, h⟩ := bind_eq_ok.1 h
    cases h
    have hscaled := (course_updateResidualScales P).ok hu
    exact ⟨hmark.trans hscaled.trail, congrArg Spot.x hscaled.keeps⟩
  · cases h
    exact ⟨hmark, rfl⟩

/-- After its opening a solve stands where it departed from. -/
theorem openSolve_stands {P : Problem α σ n} {first : Bool} {s v : Session α σ n}
    (h : openSolve P s = .ok first v) :
    ∃ e : Session α σ n, e.bracket = {} ∧ Trail s e ∧ Trail e v ∧ Stands (s.departure P) e v := by
  rw [Session.departure_eq]
  cases hready : s.work.ready with
  | false =>
    have hderived : Trail s (s.derived P) := Course.of_eq rfl rfl rfl
    rw [openSolve_unready P hready] at h
    obtain ⟨_, w, hw, h⟩ := bind_eq_ok.1 h
    obtain ⟨htrail, hstands⟩ := checkStartingPoint_stands hw
    obtain ⟨hwv, hx⟩ := settlePoint_stays h
    rw [resumed?_of_unready hready]
    exact ⟨(s.derived P).emptied, rfl, hderived.trans (trail_emptied _), htrail.trans hwv,
      hstands.keep htrail hwv hx⟩
  | true =>
    cases hresumed : resumed? P s with
    | none =>
      rw [openSolve_stays hready hresumed] at h
      obtain ⟨htrail, hx⟩ := settlePoint_stays h
      exact ⟨s.emptied, rfl, trail_emptied s, htrail, .inl hx⟩
    | some c =>
      rw [openSolve_goes hresumed] at h
      obtain ⟨htrail, hx⟩ := settlePoint_stays h
      have hback : Trail s.emptied (s.emptied.rewound c) := Course.of_eq rfl rfl rfl
      exact ⟨s.emptied, rfl, trail_emptied s, hback.trans htrail, .inl hx⟩

/-- The first attempt and its refinement leave the block standing. -/
theorem firstAttempt_stands [LawfulScalar α] {P : Problem α σ n} {standing : Standing α}
    {x : Vector α n} {e s v : Session α σ n} (he : e.bracket = {}) (hes : Trail e s)
    (hx : Stands x e s) (h : firstAttempt P s = .ok standing v) : Trail e v ∧ Stands x e v := by
  obtain ⟨attempt, t, hrun, hrefine⟩ := firstAttempt_ok h
  have hbegin : Trail s { s with work := { s.work with firstAttempt := true, retrying := false } } :=
    Course.of_eq rfl rfl rfl
  have hmark : Trail t { t with work := { t.work with firstAttempt := false } } :=
    Course.of_eq rfl rfl rfl
  have hest := hes.trans hbegin
  have htrun := ((course_runDamped P _ _).ok hrun).trail
  have hstands := (hx.keep hes hbegin rfl).run hest hrun
  have het := (hest.trans htrun).trans hmark
  have htv := (course_refineAttempt P attempt).ok hrefine
  refine ⟨het.trans htv.trail, ?_⟩
  obtain ⟨_, _, hkeep⟩ | ⟨_, _, _, _, hrefinement⟩ := refineAttempt_cases hrefine
  · exact (hstands.keep (hest.trans htrun) hmark rfl).keep het htv.trail hkeep.point
  · exact .inr (hrefinement.pinched het he).evaluated

theorem tryDescent_stands {P : Problem α σ n} {standing standing' : Standing α} {x : Vector α n}
    {e s v : Session α σ n} (hes : Trail e s) (hx : Stands x e s)
    (h : tryDescent P standing s = .ok standing' v) : Trail e v ∧ Stands x e v := by
  obtain ⟨_, rfl⟩ | ⟨attempt, _, hrun, _⟩ := tryDescent_ok h
  · exact ⟨hes, hx⟩
  · have hnotice : Trail s { s with notices := s.notices.push .descentRetry } :=
      Course.of_eq rfl rfl rfl
    exact ⟨(hes.trans hnotice).trans ((course_runDamped P _ _).ok hrun).trail,
      (hx.keep hes hnotice rfl).run (hes.trans hnotice) hrun⟩

theorem tryRescaled_stands {P : Problem α σ n} {first : Bool} {standing standing' : Standing α}
    {x : Vector α n} {e s v : Session α σ n} (hes : Trail e s) (hx : Stands x e s)
    (h : tryRescaled P first standing s = .ok standing' v) : Trail e v ∧ Stands x e v := by
  obtain ⟨_, rfl⟩ | ⟨retry, t, _, _, hretry, _, rfl⟩ := tryRescaled_ok h
  · exact ⟨hes, hx⟩
  have hnotice : Trail s { s with notices := standing.rescalingNotices s.notices } :=
    Course.of_eq rfl rfl rfl
  obtain ⟨u, w, hu, hrun, rfl⟩ := rescaledRetry_runs hretry
  have hscaled := (course_updateResidualScales P).ok hu
  have hmark : Trail u { u with work := { u.work with retrying := true } } :=
    Course.of_eq rfl rfl rfl
  have heu := (hes.trans hnotice).trans hscaled.trail
  have hstands := (hx.keep hes hnotice rfl).keep (hes.trans hnotice) hscaled.trail
    (congrArg Spot.x hscaled.keeps)
  have hew := (heu.trans hmark).trans ((course_runDamped P _ _).ok hrun).trail
  have hleft := (hstands.keep heu hmark rfl).run (heu.trans hmark) hrun
  exact ⟨hew.trans (Course.of_eq rfl rfl rfl), hleft.keep hew (Course.of_eq rfl rfl rfl) rfl⟩

/-- The attempts of a solve up to the last one leave the block standing. -/
theorem attempts_stand [LawfulScalar α] {P : Problem α σ n} {first : Bool}
    {opened opening rescaled : Standing α} {s s₁ s₂ s₃ s₄ : Session α σ n}
    (hopen : openSolve P s = .ok first s₁) (hfirst : firstAttempt P s₁ = .ok opened s₂)
    (hdescent : tryDescent P opened s₂ = .ok opening s₃)
    (hrescaled : tryRescaled P first opening s₃ = .ok rescaled s₄) :
    Trail s s₄ ∧ Stands (s.departure P) s s₄ := by
  obtain ⟨e, he, hse, hes, hx⟩ := openSolve_stands hopen
  obtain ⟨he₂, hx₂⟩ := firstAttempt_stands he hes hx hfirst
  obtain ⟨he₃, hx₃⟩ := tryDescent_stands he₂ hx₂ hdescent
  obtain ⟨he₄, hx₄⟩ := tryRescaled_stands he₃ hx₃ hrescaled
  refine ⟨hse.trans he₄, hx₄.imp_right ?_⟩
  rintro ⟨f, hf⟩
  exact ⟨f, hf.earlier hse.calls he₄.calls⟩

/-! ## The point that a solve leaves -/

/-- The restart from the nominal values that ended a solve found the residual to be undefined
there. -/
structure NominalUndefined (P : Problem α σ n) (s t : Session α σ n) (reason : Option FailureReason) :
    Prop where
  fallback : P.options.nominalFallback = true
  reason : reason = some .initialEvaluation
  guess : nominalGuess? t.nominal t.lower t.upper P.options.enforceBounds = some t.x
  undefined : Undefined s t t.x

/-- The last attempt leaves the block standing, or at nominal values where the residual is
undefined. -/
theorem tryNominal_stands {P : Problem α σ n} {standing standing' : Standing α} {x : Vector α n}
    {e s v : Session α σ n} (hes : Trail e s) (hx : Stands x e s)
    (h : tryNominal P standing s = .ok standing' v) :
    Trail e v ∧ (Stands x e v ∨ NominalUndefined P e v standing'.attempt.failure) := by
  obtain ⟨rfl, rfl⟩ | ⟨y, attempt, hdue, hguess, hrun, rfl⟩ := tryNominal_ok h
  · exact ⟨hes, .inl hx⟩
  have hbegin : Trail s { s with
      x := y
      work := { s.work with jacobianAtPoint := false }
      notices := s.notices.push .nominalRetry } := Course.of_eq rfl rfl rfl
  have hstage := (course_runDamped P _ _).ok hrun
  refine ⟨(hes.trans hbegin).trans hstage.trail, ?_⟩
  obtain ⟨rfl, hvy, hundefined⟩ | ⟨f, hf⟩ := runDamped_leaves hrun
  · right
    obtain ⟨answer, hmem, hbad⟩ := hundefined
    have hlower : v.lower = s.lower := congrArg (fun p : Stage α n => p.lower) hstage.keeps
    have hupper : v.upper = s.upper := congrArg (fun p : Stage α n => p.upper) hstage.keeps
    have hnominal : v.nominal = s.nominal :=
      congrArg (fun p : Stage α n => p.nominal) hstage.keeps
    refine ⟨(Bool.and_eq_true_iff.1 hdue).2, rfl, ?_, answer, ?_, hbad⟩
    · rw [hlower, hupper, hnominal, hvy]
      exact hguess
    · exact mem_callsSince_earlier hmem (hes.trans hbegin).calls hstage.calls
  · exact .inl (.inr ⟨f, hf.earlier (hes.trans hbegin).calls hstage.calls⟩)

/-- A solve by the damped method that comes to a verdict hands its final point to the model. If it
found the residual to be defined where it started, then it found it to be defined at that point as
well, or it ended with a restart from nominal values where the residual is undefined. -/
theorem solve_leaves_defined [LawfulScalar α] {b b' : Block α σ n}
    {r : Except (Halt α) (Report α)} {norm : α} {reason : Option FailureReason}
    (hmethod : b.problem.options.method = .damped) (h : b.solve = (r, b'))
    (hr : verdict? r = some (norm, reason)) {u : Session α σ n}
    (hprelude : prelude b.problem b.session = .ok () u) {f : Vector α n}
    (hstart : Evaluated b.session b'.session (u.departure b.problem) f) :
    b'.session.calls.back? = some (.writeBack b'.session.x (.ok ())) ∧
      ((∃ g, Evaluated b.session b'.session b'.session.x g) ∨
        NominalUndefined b.problem b.session b'.session reason) := by
  obtain ⟨u', t, hprelude', hjudged, rfl⟩ := solve_verdict hmethod h hr
  rw [hprelude] at hprelude'
  cases hprelude'
  cases hjudged with
  | @closed _ _ _ _ _ _ _ _ s₄ s₅ hopen hfirst hdescent hrescaled hnominal hclosing =>
  have hsu := ((routine_course b.problem).prelude.ok hprelude).trail
  obtain ⟨hu₄, hx₄⟩ := attempts_stand hopen hfirst hdescent hrescaled
  obtain ⟨hu₅, hx₅⟩ := tryNominal_stands hu₄ hx₄ hnominal
  have hst := (hsu.trans hu₅).trans hclosing.trail
  refine ⟨?_, ?_⟩
  · change t.calls.back? = some (.writeBack t.x (.ok ()))
    rw [hclosing.calls, hclosing.x, Array.back?_push]
  · obtain (hx | ⟨g, hg⟩) | hundefined := hx₅
    · have hx : t.unmarked.x = u.departure b.problem := hclosing.x.trans hx
      exact .inl ⟨f, by rw [hx]; exact hstart⟩
    · refine .inl ⟨g, ?_⟩
      change Evaluated b.session t t.x g
      rw [hclosing.x]
      exact (hg.earlier hsu.calls hu₅.calls).later (hsu.trans hu₅).calls hclosing.trail.calls
    · right
      obtain ⟨hfallback, hreason, hguess, answer, hmem, hbad⟩ := hundefined
      obtain ⟨hlower, hupper, hgiven⟩ : t.lower = s₅.lower ∧ t.upper = s₅.upper ∧
          t.nominal = s₅.nominal := by simpa [Session.given] using hclosing.given
      refine ⟨hfallback, hreason, ?_, answer, ?_, hbad⟩
      · change nominalGuess? t.nominal t.lower t.upper _ = some t.x
        rw [hlower, hupper, hgiven, hclosing.x]
        exact hguess
      · change Call.evaluate t.x answer ∈ callsSince b.session t
        rw [hclosing.x]
        exact mem_callsSince_later (mem_callsSince_earlier hmem hsu.calls hu₅.calls)
          (hsu.trans hu₅).calls hclosing.trail.calls

/-! ## A solve that ends where the residual is undefined -/

/-- Was the residual found to be defined at the point between two sessions? -/
def wasDefined [DecidableEq α] (s t : Session α σ n) (x : Vector α n) : Bool :=
  (callsSince s t).any fun
    | .evaluate y (.ok f) => decide (y = x) && allFinite f
    | _ => false

theorem wasDefined_iff [DecidableEq α] {s t : Session α σ n} {x : Vector α n} :
    wasDefined s t x = true ↔ ∃ f, Evaluated s t x f := by
  unfold wasDefined
  rw [List.any_eq_true]
  constructor
  · rintro ⟨c, hmem, hc⟩
    split at hc
    · next y f =>
      obtain ⟨rfl, hf⟩ : y = x ∧ allFinite f = true := by simpa using hc
      exact ⟨f, hmem, hf⟩
    · cases hc
  · rintro ⟨f, hmem, hf⟩
    exact ⟨_, hmem, by simpa using hf⟩

/-- Does a solve of the block come to a verdict, after it found the residual to be defined where it
started? -/
def Block.startsDefined [DecidableEq α] (b : Block α σ n) : Bool :=
  match prelude b.problem b.session with
  | .ok _ u => wasDefined b.session b.solve.2.session (u.departure b.problem)
  | .error _ _ => false

end

/-- A residual without a zero that is defined below four only. -/
def cliff : Vector Float 1 → Except EvalFailure (Vector Float 1) :=
  onOne fun x => if x < 4 then .ok (.singleton (x * x + 1)) else .error (.recoverable "undefined")

/-- A block whose typical point is above the cliff. -/
def cliffBlock : Block Float Unit 1 where
  problem :=
    { label := "loop"
      options := { Options.standard with maxIterations := 1 }
      model :=
        { Model.ofFunction cliff with
          start := fun values s => (.ok { values with nominal := #[5], initial := #[3] }, s) }
      auxiliaryCount := 0
      variability := .continuous }
  session := Session.fresh 1 ()

set_option maxRecDepth 100000 in
/-- The restart from the nominal values takes the block away from the points that were accepted. -/
theorem solve_leaves_defined_cliff :
    ∃ norm u f, verdict? cliffBlock.solve.1 = some (norm, some .initialEvaluation) ∧
      prelude cliffBlock.problem cliffBlock.session = .ok () u ∧
      Evaluated cliffBlock.session cliffBlock.solve.2.session (u.departure cliffBlock.problem) f ∧
      NominalUndefined cliffBlock.problem cliffBlock.session cliffBlock.solve.2.session
        (some .initialEvaluation) := by
  have hverdict : (verdict? cliffBlock.solve.1).map Prod.snd = some (some .initialEvaluation) := by
    decide +kernel
  have hstarts : cliffBlock.startsDefined = true := by decide +kernel
  have hlost : wasDefined cliffBlock.session cliffBlock.solve.2.session
      cliffBlock.solve.2.session.x = false := by decide +kernel
  obtain ⟨⟨norm, _⟩, hr, rfl⟩ := Option.map_eq_some_iff.1 hverdict
  unfold Block.startsDefined at hstarts
  split at hstarts
  · next u hprelude =>
    obtain ⟨f, hf⟩ := wasDefined_iff.1 hstarts
    refine ⟨norm, u, f, hr, hprelude, hf, ?_⟩
    have hsolve : cliffBlock.solve = (cliffBlock.solve.1, cliffBlock.solve.2) := rfl
    obtain ⟨_, hdefined | hundefined⟩ := solve_leaves_defined rfl hsolve hr hprelude hf
    · rw [wasDefined_iff.2 hdefined] at hlost
      cases hlost
    · exact hundefined
  · cases hstarts

end AlgebraicLoop
