import AlgebraicLoop.Proofs.FactorsInUse

/-!
# Fresh Jacobians

A Jacobian is reported fresh if it was evaluated for the iteration, or if a mark says that it was
evaluated at the current point before. Every move within a solve takes the mark off. The damped method
also takes it off when a solve begins; the methods without line search do not, and trust a mark that
an earlier operation left, although the point or the model may have been changed since.

* `Fresh`, `Genuine`: what the mark promises, and the invariant of the steps of a solve;
* `Undisturbed`: histories in which neither the point is given nor the model changed;
* `Trial`: the attempts of a solve, for the iterations they have on record;
* `prepareJacobian_fresh`: when the promise is kept.
-/

namespace AlgebraicLoop
set_option autoImplicit false

section
variable {α σ : Type} [Scalar α] {n : Nat} {P : Problem α σ n} {o s t u : Session α σ n}

/-! ## What the mark promises -/

/-- The Jacobian was evaluated at the point of the session, at some time since `o`. -/
def Fresh (P : Problem α σ n) (o t : Session α σ n) : Prop :=
  ∃ f w, Trail o w ∧ w.x = t.x ∧ Evaluated o w w.x f ∧ Sourced P w.x f w t

namespace Fresh

theorem earlier (h : Fresh P s t) (hos : Trail o s) : Fresh P o t := by
  obtain ⟨f, w, hsw, hx, hf, hsource⟩ := h
  exact ⟨f, w, hos.trans hsw, hx, hf.earlier hos.calls hsw.calls, hsource⟩

theorem keep (h : Fresh P o s) (hst : Trail s t) (hx : t.x = s.x)
    (hjacobian : t.work.jacobian = s.work.jacobian) : Fresh P o t := by
  obtain ⟨f, w, how, hwx, hf, exact, v, hsource, hvs⟩ := h
  refine ⟨f, w, how, hwx.trans hx.symm, hf, exact, v, ?_, hvs.trans hst⟩
  rw [hjacobian]
  exact hsource

theorem of_evaluation {f : Vector α n} (hos : Trail o s) (hf : Evaluated o s s.x f)
    (h : evaluateJacobian P s.x f s = .ok (.ok ()) t) : Fresh P o t := by
  have hx : t.x = s.x := ((course_evaluateJacobian P s.x f).ok h).point
  exact ⟨f, s, hos, hx.symm, hf, ((evaluateJacobian_after P s.x f s).ok h).2⟩

end Fresh

/-- A Jacobian about which nothing needs to be done was evaluated at the point since `o`, or it is
the one that had the mark in `o`. -/
structure Genuine (P : Problem α σ n) (o t : Session α σ n) : Prop where
  trail : Trail o t
  fresh : t.Ready →
    Fresh P o t ∨ o.work.jacobianAtPoint = true ∧ t.work.jacobian = o.work.jacobian

theorem Aside.ready (h : Aside s t) (ht : t.Ready) : s.Ready ∧ t.x = s.x := by
  obtain ⟨hpoint, hx⟩ := h.atPoint ht.atPoint
  refine ⟨⟨h.current.symm.trans ht.current, hpoint, Bool.eq_false_iff.2 fun hforced => ?_⟩, hx⟩
  exact Bool.false_ne_true (ht.unforced.symm.trans (h.forced hforced))

omit [Scalar α] in
theorem Session.Ready.of_marks (ht : t.Ready)
    (hcurrent : t.work.flags.jacobianCurrent = s.work.flags.jacobianCurrent)
    (hpoint : t.work.jacobianAtPoint = s.work.jacobianAtPoint)
    (hforced : t.work.flags.forceNewJacobian = s.work.flags.forceNewJacobian) : s.Ready :=
  ⟨hcurrent.symm.trans ht.current, hpoint.symm.trans ht.atPoint, hforced.symm.trans ht.unforced⟩

namespace Genuine

theorem refl (P : Problem α σ n) (s : Session α σ n) : Genuine P s s :=
  ⟨Course.refl _ s, fun h => .inr ⟨h.atPoint, rfl⟩⟩

theorem unmarked (hot : Trail o t) (ht : t.work.jacobianAtPoint = false) : Genuine P o t := by
  refine ⟨hot, fun hready => ?_⟩
  rw [hready.atPoint] at ht
  cases ht

theorem keep (h : Genuine P o s) (hst : Trail s t) (hready : t.Ready → s.Ready ∧ t.x = s.x)
    (hjacobian : t.work.jacobian = s.work.jacobian) : Genuine P o t := by
  refine ⟨h.trail.trans hst, fun ht => ?_⟩
  obtain ⟨hs, hx⟩ := hready ht
  exact (h.fresh hs).imp (fun hfresh => hfresh.keep hst hx hjacobian) (And.imp_right hjacobian.trans)

theorem aside (h : Genuine P o s) (hst : Aside s t) : Genuine P o t :=
  h.keep hst.trail hst.ready hst.jacobian

theorem refactored {usable : Bool} (h : Genuine P o s) (hst : Trail s t) (hx : t.x = s.x)
    (hfactored : Refactored s.dated t usable) : Genuine P o t := by
  refine h.keep hst (fun ht => ⟨ht.of_marks ?_ ?_ ?_, hx⟩) hfactored.jacobian
  · exact congrArg Marks.current hfactored.marks
  · exact congrArg Marks.atPoint hfactored.marks
  · exact congrArg Marks.forced hfactored.marks

theorem step (h : Genuine P o s) (hst : Step P o s t) : Genuine P o t := by
  have htrail : Trail s t := hst.course.trail
  cases hst with
  | aside hst => exact h.aside hst
  | evaluated hf hrun =>
    exact ⟨h.trail.trans htrail, fun _ => .inl (.of_evaluation h.trail hf hrun)⟩
  | rejected hrun =>
    have hmarks := (evaluateJacobian_after P _ _ s).ok hrun
    exact unmarked (h.trail.trans htrail) (congrArg Marks.atPoint hmarks)
  | updated _ helsewhere _ => exact unmarked (h.trail.trans htrail) helsewhere
  | factored hrun =>
    exact h.refactored htrail ((course_factorize P).ok hrun).point ((factorize_after s).ok hrun)
  | factoredDirectly _ hrun =>
    exact h.refactored htrail ((course_factorDirect P).ok hrun).point ((factorDirect_after s).ok hrun)
  | unfactored _ _ _ => exact h.keep htrail (fun ht => ⟨ht.of_marks rfl rfl rfl, rfl⟩) rfl

theorem steps (h : Genuine P o s) (hst : Steps P o s t) : Genuine P o t := by
  induction hst with
  | refl => exact h
  | tail _ hstep ih => exact ih.step hstep

/-- Without line search a Jacobian that has the mark is not evaluated again, so a fatal answer cannot
leave columns of another one in it. -/
theorem halted (h : Genuine P o s) (hmethod : P.options.method ≠ .damped) (hst : Halted P o s t) :
    Genuine P o t := by
  obtain ⟨v, hsv, rfl | ⟨hready, f, halt, hf, hrun⟩⟩ := hst
  · exact h.steps hsv
  · have hv : Genuine P o v := h.steps hsv
    have hcourse := (course_evaluateJacobian P v.x f).error hrun
    refine ⟨hv.trail.trans hcourse.trail, fun ht => ?_⟩
    obtain hmarks | ⟨_, hsource⟩ := (evaluateJacobian_after P v.x f v).error hrun
    · exact absurd (ht.of_marks (congrArg Marks.current hmarks) (congrArg Marks.atPoint hmarks)
        (congrArg Marks.forced hmarks)) (hready hmethod)
    · exact .inl ⟨f, v, hv.trail, hcourse.point.symm, hf, hsource⟩

end Genuine

/-! ## Blocks that have started -/

/-- The mark is found on a block only once its start values were taken. -/
def Session.Grounded (s : Session α σ n) : Prop :=
  s.work.jacobianAtPoint = true → s.phase ≠ .untouched

omit [Scalar α] in
theorem Session.Grounded.keep (h : s.Grounded)
    (hpoint : t.work.jacobianAtPoint = s.work.jacobianAtPoint)
    (hphase : s.phase ≠ .untouched → t.phase ≠ .untouched) : t.Grounded :=
  fun ht => hphase (h (hpoint.symm.trans ht))

omit [Scalar α] in
theorem Session.Grounded.unmarked (h : s.work.jacobianAtPoint = false) : s.Grounded := by
  intro hpoint
  rw [h] at hpoint
  cases hpoint

theorem lasting_begun (P : Problem α σ n) : Lasting P fun s => s.phase ≠ .untouched where
  started _ := id
  light s t h :=
    have hdrift : Drift P (fun _ => ()) s t := h.drift
    hdrift.onward.phase
  setting _ _ _ hphase _ := hphase
  setUp := fun s => (drift_setUp P (fun _ => ()) s).mono (fun _ _ _ h => h.onward.phase)
    fun _ _ _ h => h.onward.phase
  rewind _ _ _ := id

theorem Session.Grounded.after {b : Block α σ n} (hb : b.session.Grounded) (operation : Operation α) :
    (b.after operation).session.Grounded := by
  by_cases hop : operation = .completedOuterStep
  · subst hop
    exact hb
  · refine (lasting_begun b.problem).after (Q := Session.Grounded) (fun _ hs _ => hs) (fun k => ?_) hb
      hop
    refine (prepareUnknowns_started b.problem _).mono (fun _ _ _ ht => ht) fun _ t hrun _ => ?_
    have hpoint := congrArg (fun p => p.1.atPoint)
      ((approached_prepareUnknowns b.problem).error hrun).shift.stock
    exact hb.keep hpoint ((drift_prepareUnknowns b.problem fun _ => ()).error hrun).onward.phase

theorem Lived.grounded {b : Block α σ n} {kept : List (Checkpoint α n)} (h : Lived b kept) :
    b.session.Grounded := by
  induction h with
  | create h =>
    obtain ⟨_, rfl⟩ := Block.create_eq_ok h
    exact .unmarked rfl
  | after operation _ ih => exact ih.after operation
  | notifyEvent _ ih => exact ih
  | modifyModel _ _ ih => exact ih
  | teardown _ _ => exact .unmarked rfl
  | checkpoint _ ih => exact ih
  | @restore b kept c _ _ _ =>
    rw [Block.restore_eq]
    exact .unmarked rfl

/-! ## Histories without a disturbance -/

/-- The next solve does not move the point of a block that has the mark. -/
def Block.AtRest (b : Block α σ n) : Prop :=
  b.session.work.jacobianAtPoint = true → startingPoint b.problem b.session = b.session.x

theorem Genuine.approached {b : Block α σ n} (h : Genuine b.problem o b.session)
    (hgrounded : b.session.Grounded) (hrest : b.AtRest) (ht : Approached b.problem b.session t) :
    Genuine b.problem o t := by
  obtain hmark | hmark := Bool.eq_false_or_eq_true b.session.work.jacobianAtPoint
  · exact h.aside (ht.aside (hgrounded hmark) (hrest hmark))
  · have hpoint := congrArg (fun p => p.1.atPoint) ht.shift.stock
    exact .unmarked (h.trail.trans ht.course.trail) (hpoint.trans hmark)

/-- The second block is reached from the first one and neither was a point given nor the model
changed on the way. -/
inductive Undisturbed (b₀ : Block α σ n) : Block α σ n → Prop where
  | refl : Undisturbed b₀ b₀
  | after {b : Block α σ n} (operation : Operation α) :
      Undisturbed b₀ b → (∀ x, operation ≠ .setPoint x) → b.AtRest →
      Undisturbed b₀ (b.after operation)
  | notifyEvent {b : Block α σ n} : Undisturbed b₀ b → Undisturbed b₀ b.notifyEvent
  | teardown {b : Block α σ n} : Undisturbed b₀ b → Undisturbed b₀ b.teardown
  | restore {b : Block α σ n} (c : Checkpoint α n) :
      Undisturbed b₀ b → Undisturbed b₀ (b.restore c).2

theorem Undisturbed.trail {b₀ b : Block α σ n} (h : Undisturbed b₀ b) :
    b.problem = b₀.problem ∧ Trail b₀.session b.session := by
  induction h with
  | refl => exact ⟨rfl, Course.refl _ _⟩
  | @after b operation _ _ _ ih =>
    exact ⟨(b.after_problem operation).trans ih.1, ih.2.trans (b.trail_after operation)⟩
  | notifyEvent _ ih => exact ⟨ih.1, ih.2.trans (Course.of_eq rfl rfl rfl)⟩
  | teardown _ ih => exact ⟨ih.1, ih.2.trans (Course.of_eq rfl rfl rfl)⟩
  | restore c _ ih =>
    rw [Block.restore_eq]
    exact ⟨ih.1, ih.2.trans (Course.of_eq rfl rfl rfl)⟩

theorem Genuine.after {b : Block α σ n} (h : Genuine b.problem o b.session)
    (hmethod : b.problem.options.method ≠ .damped) (hgrounded : b.session.Grounded)
    (hrest : b.AtRest) {operation : Operation α} (hpoint : ∀ x, operation ≠ .setPoint x) :
    Genuine b.problem o (b.after operation).session := by
  have inspected : ∀ {t : Session α σ n}, Inspection b.problem b.session t →
      Genuine b.problem o t := by
    intro t ht
    cases ht with
    | stopped ht => exact h.approached hgrounded hrest ht
    | evaluated hr hrt =>
      have hr := h.approached hgrounded hrest hr
      exact hr.halted hmethod (hrt.since hr.trail)
  cases operation with
  | setPoint x => exact absurd rfl (hpoint x)
  | evaluateJacobian => exact inspected b.inspection.1
  | factorizeJacobian => exact inspected b.inspection.2
  | completedOuterStep =>
    exact h.keep (Course.of_eq rfl rfl rfl) (fun ht => ⟨ht.of_marks rfl rfl rfl, rfl⟩) rfl
  | solve =>
    cases b.passage with
    | stopped ht => exact h.approached hgrounded hrest ht
    | unstarted _ hdamped _ _ => exact absurd hdamped hmethod
    | solved hr hrv hvw hwt =>
      have hr := h.approached hgrounded hrest hr
      cases hrv with
      | opened hdamped _ => exact absurd hdamped hmethod
      | atOnce _ => exact (hr.halted hmethod (hvw.since hr.trail)).aside hwt

/-- Without a disturbance the mark keeps its promise. -/
theorem Undisturbed.genuine {b₀ b : Block α σ n} (h : Undisturbed b₀ b)
    (hmethod : b₀.problem.options.method ≠ .damped) (hb₀ : b₀.session.Grounded) :
    b.session.Grounded ∧ Genuine b.problem b₀.session b.session := by
  induction h with
  | refl => exact ⟨hb₀, .refl _ _⟩
  | @after b operation hb hpoint hrest ih =>
    obtain ⟨hgrounded, hgenuine⟩ := ih
    rw [b.after_problem operation]
    rw [← hb.trail.1] at hmethod
    exact ⟨hgrounded.after operation, hgenuine.after hmethod hgrounded hrest hpoint⟩
  | notifyEvent _ ih =>
    obtain ⟨hgrounded, hgenuine⟩ := ih
    exact ⟨hgrounded, hgenuine.keep (Course.of_eq rfl rfl rfl)
      (fun ht => ⟨ht.of_marks rfl rfl rfl, rfl⟩) rfl⟩
  | teardown _ ih =>
    exact ⟨.unmarked rfl, .unmarked (ih.2.trail.trans (Course.of_eq rfl rfl rfl)) rfl⟩
  | restore c _ ih =>
    rw [Block.restore_eq]
    exact ⟨.unmarked rfl, .unmarked (ih.2.trail.trans (Course.of_eq rfl rfl rfl)) rfl⟩

/-! ## Iterations on record -/

/-- The solve from `s` makes an attempt: the action, the session it starts in, and the positions where
it prepares the Jacobian for an iteration with a given residual. -/
inductive Trial (P : Problem α σ n) (s : Session α σ n) :
    Action α σ n (Attempt α) → Session α σ n → (Nat → Vector α n → Session α σ n → Prop) → Prop
  | damped {tol : Tolerances α} {descent : Bool} {t : Session α σ n} :
      P.options.method = .damped → Launch P s tol descent t →
      Trial P s (runDamped P tol descent) t fun k f u => ∃ j path norm record,
        k = j + 1 ∧ j < P.options.maxIterations ∧
        Walk P tol descent t j path (.onward f norm record) u
  | undamped {first : Bool} {t : Session α σ n} :
      P.options.method = .undamped → setUp P s = .ok first t →
      Trial P s (runUndamped P (P.options.plainTolerances n)) { t with phase := .iterating }
        fun k f u => ∃ j record, k = j + 1 ∧ j < P.options.maxIterations ∧
          Strides P (P.options.plainTolerances n) { t with phase := .iterating } j (.inr (f, record)) u
  | direct {first : Bool} {t : Session α σ n} :
      P.options.method = .direct → setUp P s = .ok first t →
      Trial P s (runDirect P (P.options.plainTolerances n)) { t with phase := .iterating }
        fun k f u => k = 1 ∧ evaluate P t.x { t with phase := .iterating } = .ok (.ok f) u

theorem Trial.turn {run : Action α σ n (Attempt α)} {turns : Nat → Vector α n → Session α σ n → Prop}
    {k : Nat} {f : Vector α n} (h : Trial P s run t turns) (hturn : turns k f u) :
    Turn P s k f u := by
  cases h with
  | damped hmethod hlaunch =>
    obtain ⟨j, _, _, _, rfl, hj, hwalk⟩ := hturn
    exact .damped hmethod hlaunch hwalk hj
  | undamped hmethod hsetUp =>
    obtain ⟨j, _, rfl, hj, hstrides⟩ := hturn
    exact .undamped hmethod hsetUp hstrides hj
  | direct hmethod hsetUp =>
    obtain ⟨rfl, hf⟩ := hturn
    exact .direct hmethod hsetUp hf

/-- What is on record as fresh was prepared so at a position of the attempt. -/
theorem Walk.recorded {tol : Tolerances α} {descent : Bool} {k : Nat} {path : List (Waypoint α n)}
    {progress : Progress α n} {it : IterationRecord α}
    (h : Walk P tol descent s k path progress u) (hit : it ∈ progress.record.trace)
    (hfresh : it.freshJacobian = true) :
    ∃ j path f norm record v w, it.iteration = j + 1 ∧ j < P.options.maxIterations ∧
      Walk P tol descent s j path (.onward f norm record) v ∧
      prepareJacobian P (j + 1) v.x f v = .ok (.ok true) w := by
  induction h with
  | undefined _ => exact absurd hit (Array.not_mem_empty it)
  | solved _ _ => exact absurd hit (Array.not_mem_empty it)
  | start _ _ => exact absurd hit (Array.not_mem_empty it)
  | exhausted _ _ ih => exact ih hit
  | gaveUp _ _ hheading ih =>
    rw [Progress.record, heading_gaveUp hheading] at hit
    exact ih hit
  | stays _ _ _ hsearch hmove ih =>
    rw [(searchAndMove_stays hsearch hmove).1] at hit
    exact ih hit
  | moves hwalk hk hheading hsearch hmove ih =>
    rw [(searchAndMove_moves hsearch hmove).2.1] at hit
    refine (Array.mem_push.1 hit).elim ih fun heq => ?_
    subst heq
    obtain ⟨v, hprepare, _⟩ := heading_prepared hheading
    have htrue : Heading.fresh _ = true := hfresh
    rw [htrue] at hprepare
    exact ⟨_, _, _, _, _, _, v, rfl, hk, hwalk, hprepare⟩

theorem Strides.recorded {tol : Tolerances α} {k : Nat}
    {progress : Attempt α ⊕ Vector α n × RunRecord α} {it : IterationRecord α}
    (h : Strides P tol s k progress u) (hit : it ∈ (strideRecord progress).trace)
    (hfresh : it.freshJacobian = true) :
    ∃ j f record v w, it.iteration = j + 1 ∧ j < P.options.maxIterations ∧
      Strides P tol s j (.inr (f, record)) v ∧
      prepareJacobian P (j + 1) v.x f v = .ok (.ok true) w := by
  induction h with
  | undefined _ => exact absurd hit (Array.not_mem_empty it)
  | solved _ _ => exact absurd hit (Array.not_mem_empty it)
  | start _ _ => exact absurd hit (Array.not_mem_empty it)
  | exhausted _ _ ih => exact ih hit
  | next hstrides hk hrun ih =>
    obtain ⟨_, rfl, _⟩ | ⟨_, _, hstep, hrecord, _⟩ := iterateUndamped_cases hrun
    · exact ih hit
    · rw [hrecord] at hit
      refine (Array.mem_push.1 hit).elim ih fun heq => ?_
      subst heq
      obtain ⟨_, _, v, _, _, hprepare, _⟩ := hstep.taken
      rw [hfresh] at hprepare
      exact ⟨_, _, _, _, v, hstep.numbered, hk, hstrides, hprepare⟩

theorem evaluate_work {x : Vector α n} {answer : Except Mishap (Vector α n)}
    (h : evaluate P x s = .ok answer t) : t.work = s.work := by
  obtain ⟨_, _, e⟩ | ⟨_, _, e⟩ | ⟨_, _, _, _, e⟩ | ⟨_, _, _, e⟩ := evaluate_outcome P x s
  · rw [e] at h
    cases h
  all_goals
    rw [e] at h
    cases h
    rfl

theorem secureFactors_age {usable : Bool} (h : secureFactors factorDirect s = .ok usable t) :
    t.work.jacobianAge = s.work.jacobianAge := by
  obtain ⟨_, _, rfl⟩ | ⟨_, h⟩ := secureFactors_cases h
  · rfl
  · obtain ⟨_, _, hrun⟩ := factorDirect_run s
    cases hrun.symm.trans h
    rfl

/-- A direct solve has at most one iteration on record, with the age of its Jacobian. -/
theorem stepDirectly_recorded {tol : Tolerances α} {x f : Vector α n} {norm : α} {usable : Bool}
    {attempt : Attempt α} {it : IterationRecord α}
    (h : stepDirectly P tol x f norm usable s = .ok attempt t) (hit : it ∈ attempt.record.trace) :
    it.iteration = 1 ∧ it.freshJacobian = decide (s.work.jacobianAge = 0) := by
  have hnone : it ∉ (RunRecord.empty : RunRecord α).trace := Array.not_mem_empty it
  obtain ⟨hblank, _⟩ | ⟨_, _, u, it', hu, _, hrecord, hiteration, hage⟩ := stepDirectly_cases h
  · rw [hblank] at hit
    exact absurd hit hnone
  · rw [hrecord] at hit
    refine (Array.mem_push.1 hit).elim (fun hold => absurd hold hnone) ?_
    rintro rfl
    rw [hage, evaluate_work hu]
    exact ⟨hiteration, rfl⟩

/-- A Jacobian that was kept for one more iteration is not recorded as fresh. -/
theorem runDirect_recorded {tol : Tolerances α} {attempt : Attempt α} {it : IterationRecord α}
    (h : runDirect P tol s = .ok attempt t) (hit : it ∈ attempt.record.trace)
    (hfresh : it.freshJacobian = true) :
    it.iteration = 1 ∧ ∃ f u v, evaluate P s.x s = .ok (.ok f) u ∧
      prepareJacobian P 1 u.x f u = .ok (.ok true) v := by
  rw [runDirect_eq, get_bind_apply] at h
  obtain ⟨answer, u, hu, h⟩ := bind_eq_ok.1 h
  cases answer with
  | error mishap =>
    cases h
    exact absurd hit (Array.not_mem_empty it)
  | ok f =>
    dsimp only at h
    rw [get_bind_apply] at h
    obtain ⟨status, v, hv, h⟩ := bind_eq_ok.1 h
    cases status with
    | error mishap =>
      cases h
      exact absurd hit (Array.not_mem_empty it)
    | ok fresh =>
      obtain ⟨usable, w, hw, h⟩ := bind_eq_ok.1 h
      obtain ⟨hiteration, hit⟩ := stepDirectly_recorded h hit
      have hx : u.x = s.x := ((course_evaluate P s.x).ok hu).point
      rw [← hx] at hv
      cases fresh with
      | true => exact ⟨hiteration, f, u, v, hu, hv⟩
      | false =>
        have hage : v.work.jacobianAge = u.work.jacobianAge + 1 := by
          obtain ⟨_, rfl | ⟨J, _, rfl⟩⟩ := (prepareJacobian_after P 1 u.x f u).ok hv
          · rfl
          · rfl
        rw [hfresh, secureFactors_age hw, hage] at hit
        cases hit

/-- An attempt has an iteration on record as one with a fresh Jacobian only if the Jacobian was
reported fresh where it was prepared for that iteration. -/
theorem Trial.recorded {run : Action α σ n (Attempt α)}
    {turns : Nat → Vector α n → Session α σ n → Prop} {attempt : Attempt α}
    {it : IterationRecord α} (h : Trial P s run t turns) (hrun : run t = .ok attempt u)
    (hit : it ∈ attempt.record.trace) (hfresh : it.freshJacobian = true) :
    ∃ f v w, turns it.iteration f v ∧
      prepareJacobian P it.iteration v.x f v = .ok (.ok true) w := by
  cases h with
  | damped hmethod hlaunch =>
    obtain ⟨_, _, hwalk⟩ := runDamped_eq_ok.1 hrun
    obtain ⟨j, path, f, norm, record, v, w, hiteration, hj, hwalk, hprepare⟩ :=
      hwalk.recorded hit hfresh
    rw [hiteration]
    exact ⟨f, v, w, ⟨j, path, norm, record, rfl, hj, hwalk⟩, hprepare⟩
  | undamped hmethod hsetUp =>
    obtain ⟨_, hstrides⟩ := (runUndamped_after P _ _).ok hrun
    obtain ⟨j, f, record, v, w, hiteration, hj, hstrides, hprepare⟩ := hstrides.recorded hit hfresh
    rw [hiteration]
    exact ⟨f, v, w, ⟨j, record, rfl, hj, hstrides⟩, hprepare⟩
  | direct hmethod hsetUp =>
    obtain ⟨hiteration, f, v, w, hf, hprepare⟩ := runDirect_recorded hrun hit hfresh
    rw [hiteration]
    exact ⟨f, v, w, ⟨rfl, hf⟩, hprepare⟩

/-! ## The promise kept -/

/-- A Jacobian that is reported fresh was evaluated at the point, or it is the one that had the mark
when the solve began. -/
theorem Genuine.prepared {k : Nat} {f : Vector α n} {v : Session α σ n} (h : Genuine P o u)
    (hf : Evaluated o u u.x f) (hprepare : prepareJacobian P k u.x f u = .ok (.ok true) v) :
    Fresh P o v ∨ o.work.jacobianAtPoint = true ∧ v.work.jacobian = o.work.jacobian := by
  obtain ⟨hready, rfl⟩ | ⟨_, hrun⟩ := (prepareJacobian_after P k u.x f u).ok hprepare
  · exact h.fresh hready
  · exact .inl (.of_evaluation h.trail hf hrun)

/-- A Jacobian that is reported fresh was evaluated at the very point where it is put to use, after the
point was given or the model changed for the last time, and only such a Jacobian goes on record as
fresh. A damped solve evaluates it itself. The other methods trust a mark that the block has when the
solve begins: it may be older than the last disturbance, or the solve may move the point first. -/
theorem prepareJacobian_fresh {b₀ b : Block α σ n} {kept : List (Checkpoint α n)}
    (hb₀ : Lived b₀ kept) (hb : Undisturbed b₀ b) (hs : prelude b.problem b.session = .ok () s) :
    (∀ k f u v, Turn b.problem s k f u →
      prepareJacobian b.problem k u.x f u = .ok (.ok true) v →
      Fresh b.problem b₀.session v ∨
        b.problem.options.method ≠ .damped ∧ b.session.work.jacobianAtPoint = true ∧
          (b.AtRest → b₀.session.work.jacobianAtPoint = true ∧
            v.work.jacobian = b₀.session.work.jacobian)) ∧
      ∀ run t turns attempt w, Trial b.problem s run t turns → run t = .ok attempt w →
        ∀ it ∈ attempt.record.trace, it.freshJacobian = true →
          ∃ f u v, turns it.iteration f u ∧ Turn b.problem s it.iteration f u ∧
            prepareJacobian b.problem it.iteration u.x f u = .ok (.ok true) v := by
  refine ⟨fun k f u v hturn hprepare => ?_, fun run t turns attempt w htrial hrun it hit hfresh => ?_⟩
  · have hbs : Approached b.problem b.session s := (approached_prelude b.problem).ok hs
    have hb₀s : Trail b₀.session s := hb.trail.2.trans hbs.course.trail
    have hmark : s.work.jacobianAtPoint = b.session.work.jacobianAtPoint :=
      congrArg (fun p => p.1.atPoint) hbs.shift.stock
    obtain ⟨e, hse, heu, hf⟩ := hturn.reached
    have hsolve := ((Genuine.refl b.problem e).steps heu).prepared hf hprepare
    have hb₀e : Trail b₀.session e := hb₀s.trans hse.trail
    obtain hfresh | ⟨hemark, _⟩ := hsolve
    · exact .inl (hfresh.earlier hb₀e)
    · cases hse with
      | opened _ hopen =>
        rw [hopen.unmarked] at hemark
        cases hemark
      | atOnce hmethod =>
        by_cases hrest : b.AtRest
        · have hplain : b₀.problem.options.method ≠ .damped := by
            rw [← hb.trail.1]
            exact hmethod
          obtain ⟨hgrounded, hgenuine⟩ := hb.genuine hplain hb₀.grounded
          have hs := hgenuine.approached hgrounded hrest hbs
          have hf : Evaluated b₀.session u u.x f :=
            hf.earlier hb₀s.calls (Steps.trail heu).calls
          have hpromise := (hs.steps (heu.since hb₀s)).prepared hf hprepare
          exact hpromise.imp id fun hold => ⟨hmethod, hmark.symm.trans hemark, fun _ => hold⟩
        · exact .inr ⟨hmethod, hmark.symm.trans hemark, fun h => absurd h hrest⟩
  · obtain ⟨f, u, v, hturn, hprepare⟩ := htrial.recorded hrun hit hfresh
    exact ⟨f, u, v, hturn, htrial.turn hturn, hprepare⟩

end

/-! ## A block whose Jacobian was asked for before a solve -/

/-- A block that takes full steps, at a given point. -/
def strideBlock : Block Float Unit 1 :=
  let b : Block Float Unit 1 :=
    { problem := { twoBlock.problem with options := { Options.standard with method := .undamped } }
      session := twoBlock.session }
  (b.setPoint #[5]).2

theorem strideBlock_lived : Lived strideBlock [] := by
  have hcreate : Lived { problem := strideBlock.problem, session := twoBlock.session } [] :=
    @Lived.create Float Unit _ 1 "loop" twoBlock.problem.model () strideBlock.problem.options 0
      .continuous _ rfl
  exact hcreate.after (.setPoint #[5])

set_option maxRecDepth 100000 in
/-- The Jacobian that was asked for is used in the first iteration, and is not evaluated again. -/
theorem prepareJacobian_fresh_inspected :
    ∃ s f u v, prelude strideBlock.problem strideBlock.evaluateJacobian.2.session = .ok () s ∧
      Turn strideBlock.problem s 1 f u ∧
      prepareJacobian strideBlock.problem 1 u.x f u = .ok (.ok true) v ∧
      v.counters.jacobianEvaluations =
        strideBlock.evaluateJacobian.2.session.counters.jacobianEvaluations ∧
      Fresh strideBlock.problem strideBlock.session v := by
  have hproblem : strideBlock.evaluateJacobian.2.problem = strideBlock.problem :=
    strideBlock.after_problem .evaluateJacobian
  have hunmarked : strideBlock.session.work.jacobianAtPoint = false := by decide +kernel
  have hhistory : Undisturbed strideBlock strideBlock.evaluateJacobian.2 :=
    Undisturbed.refl.after .evaluateJacobian nofun fun h => by
      rw [hunmarked] at h
      cases h
  have hway : comesTo (prelude strideBlock.problem) strideBlock.evaluateJacobian.2.session (fun _ s =>
      comesTo (setUp strideBlock.problem) s fun _ t =>
        comesTo (evaluate strideBlock.problem t.x) { t with phase := .iterating } fun answer u =>
          answer.toOption.any fun f =>
            !decide (scaledNorm f u.work.residualScale ≤
                (strideBlock.problem.options.plainTolerances 1).function) &&
              comesTo (prepareJacobian strideBlock.problem 1 u.x f) u fun answer v =>
                answer.toOption.any fun fresh => fresh && v.counters.jacobianEvaluations ==
                  strideBlock.evaluateJacobian.2.session.counters.jacobianEvaluations) = true := by
    decide +kernel
  obtain ⟨_, s, hs, hway⟩ := exists_of_comesTo hway
  obtain ⟨first, t, ht, hway⟩ := exists_of_comesTo hway
  obtain ⟨answer, u, hu, hway⟩ := exists_of_comesTo hway
  cases answer with
  | error mishap => cases hway
  | ok f =>
    obtain ⟨hnorm, hway⟩ := Bool.and_eq_true_iff.1 hway
    obtain ⟨answer, v, hv, hway⟩ := exists_of_comesTo hway
    cases answer with
    | error mishap => cases hway
    | ok fresh =>
      obtain ⟨rfl, hcount⟩ := Bool.and_eq_true_iff.1 hway
      have hturn : Turn strideBlock.problem s 1 f u :=
        .undamped (by decide +kernel) ht (.start hu (by simpa using hnorm)) (by decide +kernel)
      refine ⟨s, f, u, v, hs, hturn, hv, by simpa using hcount, ?_⟩
      rw [← hproblem] at hs hturn hv ⊢
      obtain hfresh | ⟨_, _, hold⟩ :=
        (prepareJacobian_fresh strideBlock_lived hhistory hs).1 1 f u v hturn hv
      · exact hfresh
      · have hrest : strideBlock.evaluateJacobian.2.AtRest := fun _ => by decide +kernel
        obtain ⟨hmark, _⟩ := hold hrest
        rw [hunmarked] at hmark
        cases hmark

end AlgebraicLoop
