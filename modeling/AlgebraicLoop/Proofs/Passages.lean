import AlgebraicLoop.Proofs.Rewind
import AlgebraicLoop.Proofs.SolveSteps

/-!
# Operations, step by step

While a solve begins, its point may move: into the bounds, to the nominal values or back to the
accepted outer step. All else that an operation does to a block it does by steps.

* `Opened`, `openSolve_opened`: the opening of a damped solve;
* `Turn.reached`: the positions of a solve where its Jacobian is prepared;
* `Passage`, `Inspection`: whole operations.
-/

namespace AlgebraicLoop
set_option autoImplicit false

section
variable {α σ : Type} [Scalar α] {n : Nat} {P : Problem α σ n} {o s t u : Session α σ n}

/-! ## The opening of a damped solve -/

/-- The point may have moved; the Jacobian, its factorization and all marks are as they were. -/
structure Shift (s t : Session α σ n) : Prop where
  course : Course (fun s => s.work.accepted) s t
  stock : t.stock = s.stock

theorem Shift.refl (s : Session α σ n) : Shift s s := ⟨Course.refl _ s, rfl⟩

theorem Shift.trans (hst : Shift s t) (htu : Shift t u) : Shift s u :=
  ⟨hst.course.trans htu.course, htu.stock.trans hst.stock⟩

theorem shift_evaluate (P : Problem α σ n) (x : Vector α n) : Follows Shift (evaluate P x) := by
  intro s
  have shift : ∀ t, Course (Session.footing P) s t → t.stock = s.stock → Shift s t :=
    fun t hst hstock => ⟨hst.upheld, hstock⟩
  refine ((closed_stock P).residual x s).mono (fun _ t hrun hstock => ?_) fun _ t hrun hstock => ?_
  · exact shift t ((course_evaluate P x).ok hrun) hstock
  · exact shift t ((course_evaluate P x).error hrun) hstock

theorem shift_checkStartingPoint (P : Problem α σ n) : Follows Shift (checkStartingPoint P) :=
  follows_checkStartingPoint Shift.refl (fun _ _ _ => Shift.trans) (shift_evaluate P)
    (fun _ _ => ⟨Course.of_eq rfl rfl rfl, rfl⟩) fun _ _ => ⟨Course.of_eq rfl rfl rfl, rfl⟩

/-- How a damped solve opens: at the point it was given, or at the accepted outer step. -/
inductive Opened (P : Problem α σ n) (s : Session α σ n) : Session α σ n → Prop
  | inPlace {t : Session α σ n} : Shift s t → Opened P s t.unpinned
  | wentBack {c : Checkpoint α n} :
      P.options.startFromAccepted = true → s.work.ready = true → s.atEvent = false →
      s.guessGiven = false → s.work.accepted = some c →
      Opened P s ({ s with bracket := {} }.rewound c)

theorem shift_emptied (s : Session α σ n) : Shift s s.emptied :=
  have h := trail_emptied s
  ⟨⟨h.calls, h.samples, h.sound, rfl⟩, rfl⟩

theorem Opened.trail (h : Opened P s t) : Trail s t := by
  cases h with
  | inPlace h => exact h.course.trail.trans (Course.of_eq rfl rfl rfl)
  | wentBack _ _ _ _ _ => exact (trail_emptied s).trans (Course.of_eq rfl rfl rfl)

theorem Opened.unmarked (h : Opened P s t) : t.work.jacobianAtPoint = false := by
  cases h with
  | inPlace _ => rfl
  | wentBack _ _ _ _ _ => rfl

theorem settlePoint_opened (hmethod : P.options.method = .damped) {first : Bool}
    (ht : Opened P s t.unpinned) :
    After (settlePoint P first) t (fun _ u => ∃ v, Opened P s v ∧ Steps P v v u)
      fun _ u => Shift s u ∨ ∃ v, Opened P s v ∧ Halted P v v u := by
  have htreads : Treads P t.unpinned
      (if first || P.options.rescaleEachSolve || t.work.flags.forceRescaling then
        updateResidualScales P >>= fun _ => pure first
      else pure first) t.unpinned := by
    split
    · exact (tracked_updateResidualScales hmethod _ _ (Course.refl _ _)).bind fun _ _ _ _ => .refl
    · exact .refl
  rw [after_congr (settlePoint_apply P first t)]
  exact htreads.mono (fun _ _ _ h => ⟨_, ht, h⟩) fun _ _ _ h => .inr ⟨_, ht, h⟩

theorem openSolve_opened (hmethod : P.options.method = .damped) (s : Session α σ n) :
    After (openSolve P) s (fun _ t => ∃ v, Opened P s v ∧ Steps P v v t)
      fun _ t => Shift s t ∨ ∃ v, Opened P s v ∧ Halted P v v t := by
  refine after_openSolve (fun _ => ?_)
    (fun _ _ => settlePoint_opened hmethod (.inPlace (shift_emptied s))) fun c hc => ?_
  · have hderived : Shift s (s.derived P) := ⟨Course.of_eq rfl rfl rfl, rfl⟩
    have hbegun := hderived.trans (shift_emptied _)
    have hcheck : After (checkStartingPoint P) (s.derived P).emptied (fun _ u => Shift s u)
        fun _ u => Shift s u ∨ ∃ v, Opened P s v ∧ Halted P v v u :=
      (shift_checkStartingPoint P _).mono (fun _ u _ h => hbegun.trans h) fun _ u _ h =>
        .inl (hbegun.trans h)
    exact hcheck.bind fun _ u hu => settlePoint_opened hmethod (.inPlace hu)
  · obtain ⟨⟨hoption, hready, hevent, hguess⟩, haccepted⟩ := resumed?_eq_some.1 hc
    exact settlePoint_opened hmethod (.wentBack hoption hready hevent hguess haccepted)

/-! ## Positions of a solve -/

/-- Where the attempts of a solve begin that was set going in `s`. -/
inductive Entered (P : Problem α σ n) (s : Session α σ n) : Session α σ n → Prop
  | opened {v : Session α σ n} : P.options.method = .damped → Opened P s v → Entered P s v
  | atOnce : P.options.method ≠ .damped → Entered P s s

theorem Entered.trail (h : Entered P s t) : Trail s t := by
  cases h with
  | opened _ h => exact h.trail
  | atOnce _ => exact Course.refl _ s

theorem Launch.reached {tol : Tolerances α} {descent : Bool} (hmethod : P.options.method = .damped)
    (h : Launch P s tol descent t) : ∃ v, Opened P s v ∧ Steps P v v t := by
  have first : ∀ {first : Bool} {standing : Standing α} {u v : Session α σ n},
      openSolve P s = .ok first u → firstAttempt P u = .ok standing v →
        ∃ w, Opened P s w ∧ Steps P w w v := by
    intro _ standing u v hu hv
    obtain ⟨w, hw, hwu⟩ := (openSolve_opened hmethod s).ok hu
    exact ⟨w, hw, hwu.trans ((tracked_firstAttempt P w u hwu.trail).ok hv)⟩
  cases h with
  | first hu =>
    obtain ⟨w, hw, hwu⟩ := (openSolve_opened hmethod s).ok hu
    exact ⟨w, hw, hwu.trans (Steps.of_aside (.of_change rfl rfl rfl rfl rfl))⟩
  | descent hu hv _ =>
    obtain ⟨w, hw, hwv⟩ := first hu hv
    exact ⟨w, hw, hwv.trans (Steps.of_aside (.of_change rfl rfl rfl rfl rfl))⟩
  | @rescaled _ _ opening _ _ z _ hu hv hx _ _ hy =>
    obtain ⟨w, hw, hwv⟩ := first hu hv
    have hwx := hwv.trans ((tracked_tryDescent P w _ _ hwv.trail).ok hx)
    have hwz : Steps P w w { z with notices := opening.rescalingNotices z.notices } :=
      hwx.trans (Steps.of_aside (.of_change rfl rfl rfl rfl rfl))
    have hwy := hwz.trans ((tracked_updateResidualScales hmethod w _ (Steps.trail hwz)).ok hy)
    exact ⟨w, hw, hwy.trans (Steps.of_aside (.of_change rfl rfl rfl rfl rfl))⟩
  | nominal hu hv hx hy _ _ =>
    obtain ⟨w, hw, hwv⟩ := first hu hv
    have hwx := hwv.trans ((tracked_tryDescent P w _ _ hwv.trail).ok hx)
    have hwy := hwx.trans ((tracked_tryRescaled hmethod w _ _ _ (Steps.trail hwx)).ok hy)
    exact ⟨w, hw, hwy.trans (Steps.of_aside (.moved rfl rfl rfl rfl rfl))⟩

/-- A solve comes by steps to each position where its Jacobian is prepared, and the residual it has
there was found at its point. -/
theorem Turn.reached {k : Nat} {f : Vector α n} (h : Turn P s k f u) :
    ∃ v, Entered P s v ∧ Steps P v v u ∧ Evaluated v u u.x f := by
  have plain : P.options.method = .undamped ∨ P.options.method = .direct →
      P.options.method ≠ .damped := by
    rintro (h | h)
    all_goals
      rw [h]
      exact Method.noConfusion
  cases h with
  | damped hmethod hlaunch hwalk _ =>
    obtain ⟨v, hv, hvt⟩ := hlaunch.reached hmethod
    have htu := hwalk.steps hvt.trail
    exact ⟨v, .opened hmethod hv, hvt.trans htu, hwalk.evaluated.earlier hvt.trail.calls htu.trail.calls⟩
  | @undamped _ t _ _ _ _ hmethod ht hstrides _ =>
    have hst : Aside s { t with phase := .iterating } :=
      ((aside_setUp P).ok ht).trans (.of_change rfl rfl rfl rfl rfl)
    have htu := hstrides.steps hst.trail
    exact ⟨s, .atOnce (plain (.inl hmethod)), (Steps.of_aside hst).trans htu,
      hstrides.evaluated.2.earlier hst.trail.calls htu.trail.calls⟩
  | @direct _ t _ _ hmethod ht hf =>
    have hst : Aside s { t with phase := .iterating } :=
      ((aside_setUp P).ok ht).trans (.of_change rfl rfl rfl rfl rfl)
    have htu := (aside_evaluate P t.x).ok hf
    have hx : u.x = t.x := ((course_evaluate P t.x).ok hf).point
    refine ⟨s, .atOnce (plain (.inr hmethod)), Steps.of_aside (hst.trans htu), ?_⟩
    rw [hx]
    exact (evaluated_of_ok hf).earlier hst.trail.calls htu.trail.calls

/-- Where a solve by a method can end. -/
theorem solveByMethod_entered (P : Problem α σ n) (s : Session α σ n) :
    After (solveByMethod P) s (fun _ t => ∃ v, Entered P s v ∧ Steps P v v t)
      fun _ t => P.options.method = .damped ∧ Shift s t ∨
        ∃ v, Entered P s v ∧ Halted P v v t := by
  have plain : ∀ {a : Action α σ n (Report α)}, P.options.method ≠ .damped → Tracked P s a →
      After a s (fun _ t => ∃ v, Entered P s v ∧ Steps P v v t)
        fun _ t => P.options.method = .damped ∧ Shift s t ∨ ∃ v, Entered P s v ∧ Halted P v v t :=
    fun hmethod ha => (ha s (Course.refl _ s)).mono (fun _ _ _ h => ⟨s, .atOnce hmethod, h⟩)
      fun _ _ _ h => .inr ⟨s, .atOnce hmethod, h⟩
  unfold solveByMethod
  split
  · next hmethod =>
    have hopen := (openSolve_opened hmethod s).mono
      (fun _ t _ ⟨v, hv, hvt⟩ => (⟨v, .opened hmethod hv, hvt⟩ : ∃ v, Entered P s v ∧ Steps P v v t))
      fun _ t _ h => h.imp (And.intro hmethod) fun ⟨v, hv, hvt⟩ =>
        (⟨v, .opened hmethod hv, hvt⟩ : ∃ v, Entered P s v ∧ Halted P v v t)
    refine hopen.bind fun first t ⟨v, hv, hvt⟩ => ?_
    exact (tracked_attempts hmethod v first t hvt.trail).mono (fun _ _ _ h => ⟨v, hv, hvt.trans h⟩)
      fun _ _ _ h => .inr ⟨v, hv, h.of_steps hvt⟩
  · next hmethod =>
    exact plain (by rw [hmethod]; exact Method.noConfusion)
      (tracked_solveOnce s fun tol => tracked_runUndamped P s tol)
  · next hmethod =>
    exact plain (by rw [hmethod]; exact Method.noConfusion)
      (tracked_solveOnce s fun tol => tracked_runDirect hmethod s tol)

/-! ## Operations -/

/-- Start values may have been taken, and the point moved into the bounds. -/
structure Approached (P : Problem α σ n) (s t : Session α σ n) : Prop where
  course : Course Session.backdrop s t
  point : s.phase ≠ .untouched → t.x = s.x ∨ t.x = startingPoint P s

theorem approached_prepareUnknowns (P : Problem α σ n) :
    Follows (Approached P) (prepareUnknowns P) := by
  intro s
  by_cases hs : s.phase = .untouched
  · exact (course_prepareUnknowns P s).mono (fun _ _ _ h => ⟨h, fun hne => absurd hs hne⟩)
      fun _ _ _ h => ⟨h, fun hne => absurd hs hne⟩
  · rw [after_congr (prepareUnknowns_again hs)]
    exact ⟨Course.refl _ s, fun _ => .inl rfl⟩

theorem course_backdrop_updateAuxiliary (P : Problem α σ n) (x : Vector α n) :
    Follows (fun s t => Course Session.backdrop s t ∧ t.x = s.x) (updateAuxiliary P x) :=
  follows_updateAuxiliary fun _ _ => ⟨Course.of_call rfl rfl rfl, rfl⟩

theorem approached_prelude (P : Problem α σ n) : Follows (Approached P) (prelude P) := by
  intro s
  by_cases hs : s.phase = .untouched
  · have hcourse : Follows (Course Session.backdrop) (prelude P) :=
      follows_prelude (Course.refl _) (fun _ _ _ => Course.trans) (fun _ => Course.of_eq rfl rfl rfl)
        (course_prepareUnknowns P) (fun _ _ => Course.of_eq rfl rfl rfl) fun x t =>
          (course_backdrop_updateAuxiliary P x t).mono (fun _ _ _ h => h.1) fun _ _ _ h => h.1
    exact (hcourse s).mono (fun _ _ _ h => ⟨h, fun hne => absurd hs hne⟩)
      fun _ _ _ h => ⟨h, fun hne => absurd hs hne⟩
  · have hbegun : Course Session.backdrop s (s.begun P) := Course.of_eq rfl rfl rfl
    rw [after_congr (prelude_started P s hs)]
    split
    · exact (course_backdrop_updateAuxiliary P _ (s.begun P)).mono
        (fun _ _ _ h => ⟨hbegun.trans h.1, fun _ => .inr h.2⟩)
        fun _ _ _ h => ⟨hbegun.trans h.1, fun _ => .inr h.2⟩
    · exact ⟨hbegun, fun _ => .inr rfl⟩

theorem Approached.shift (h : Approached P s t) : Shift s t where
  course := h.course.coarser fun e => congrArg (fun p : Workspace α n × Bool × Bool × Bool =>
    p.1.accepted) e
  stock := by
    obtain ⟨hwork, hrest⟩ := Prod.mk.inj h.course.keeps
    obtain ⟨_, hrest⟩ := Prod.mk.inj hrest
    unfold Session.stock Session.findings Session.marks
    rw [hwork, (Prod.mk.inj hrest).1]

/-- An operation on a block whose point is within the bounds leaves the point at first. -/
theorem Approached.aside (h : Approached P s t) (hs : s.phase ≠ .untouched)
    (hx : startingPoint P s = s.x) : Aside s t :=
  .of_stock h.course.trail h.shift.course.keeps ((h.point hs).elim id fun e => e.trans hx)
    h.shift.stock

/-- What a solve does, from its start to where it ends or halts. -/
inductive Passage (P : Problem α σ n) (s t : Session α σ n) : Prop
  /-- It halts before anything is done about the loop. -/
  | stopped : Approached P s t → Passage P s t
  /-- The residual is defined neither at the very first point nor at the nominal values, which only
  the damped method tries. -/
  | unstarted {r v : Session α σ n} :
      Approached P s r → P.options.method = .damped → Shift r v → Aside v t → Passage P s t
  | solved {r v w : Session α σ n} :
      Approached P s r → Entered P r v → Halted P v v w → Aside w t → Passage P s t

/-- What an evaluation that was asked for does, from its start to where it ends or halts. -/
inductive Inspection (P : Problem α σ n) (s t : Session α σ n) : Prop
  | stopped : Approached P s t → Inspection P s t
  | evaluated {r : Session α σ n} : Approached P s r → Halted P r r t → Inspection P s t

theorem Passage.trail (h : Passage P s t) : Trail s t := by
  cases h with
  | stopped hst => exact hst.course.trail
  | unstarted hsr _ hrv hvt => exact (hsr.course.trail.trans hrv.course.trail).trans hvt.trail
  | solved hsr hrv hvw hwt =>
    exact ((hsr.course.trail.trans hrv.trail).trans hvw.course.trail).trans hwt.trail

theorem Inspection.trail (h : Inspection P s t) : Trail s t := by
  cases h with
  | stopped hst => exact hst.course.trail
  | evaluated hsr hrt => exact hsr.course.trail.trans hrt.course.trail

theorem solveAction_passage (P : Problem α σ n) (s : Session α σ n) :
    After (solveAction P) s (fun _ t => Passage P s t) fun _ t => Passage P s t := by
  have hunmarked : ∀ t : Session α σ n, Aside t t.unmarked := fun _ =>
    .of_change rfl rfl rfl rfl rfl
  rw [solveAction_eq]
  refine ((approached_prelude P s).mono (fun _ _ _ h => h) fun _ _ _ h => .stopped h).bind
    fun _ r hr => ?_
  rw [after_thenAlways]
  refine (solveByMethod_entered P r).mono (fun _ t _ ⟨v, hv, hvt⟩ => ?_) fun _ t _ h => ?_
  · exact .solved hr hv hvt.halted (hunmarked t)
  · obtain ⟨hmethod, hshift⟩ | ⟨v, hv, hvt⟩ := h
    · exact .unstarted hr hmethod hshift (hunmarked t)
    · exact .solved hr hv hvt (hunmarked t)

theorem tracked_startedJacobian (P : Problem α σ n) (o : Session α σ n) :
    Tracked P o (startedJacobian P) := by
  have failed : ∀ fault, Tracked P o (fail fault : Action α σ n Unit) :=
    fun _ _ _ => Steps.halted .refl
  refine .bind (.bind (.of_aside (aside_setUp P)) fun _ => .value _) fun _ s hs => ?_
  refine .read ?_
  refine (Treads.of_aside (aside_evaluate P s.x) s).bind fun answer t ht hst => ?_
  cases answer with
  | error mishap => exact failed _ t (hs.trans hst.trail)
  | ok f =>
    obtain ⟨hx, hf⟩ := evaluated_here hs ht
    have hpressed : ¬ t.pressed.Ready := fun h => Bool.noConfusion h.unforced
    have hjacobian : Treads P o (evaluateJacobian P s.x f) t.pressed := by
      rw [← hx]
      exact treads_evaluateJacobian (fun _ => hpressed) hf
    have hpress : Tracked P o (modifyWork fun w : Workspace α n =>
        { w with flags.forceNewJacobian := true } : Action α σ n Unit) := .work Aside.pressed
    refine (hpress t (hs.trans hst.trail)).bind fun _ u hu _ => ?_
    cases hu
    refine hjacobian.bind fun status v _ hsv => ?_
    cases status with
    | error mishap => exact Steps.halted .refl
    | ok _ => exact .refl

theorem freshJacobian_inspection (P : Problem α σ n) (s : Session α σ n) :
    After (freshJacobian P) s (fun _ t => ∃ r, Approached P s r ∧ Steps P r r t)
      fun _ t => Inspection P s t := by
  rw [freshJacobian_eq]
  refine ((approached_prepareUnknowns P s).mono (fun _ _ _ h => h) fun _ _ _ h =>
    .stopped h).bind fun _ r hr => ?_
  exact (tracked_startedJacobian P r r (Course.refl _ r)).mono (fun _ _ _ h => ⟨r, hr, h⟩)
    fun _ _ _ h => .evaluated hr h

theorem jacobianAction_inspection (P : Problem α σ n) (s : Session α σ n) :
    After (jacobianAction P) s (fun _ t => Inspection P s t) fun _ t => Inspection P s t :=
  (freshJacobian_inspection P s).bind fun _ _ ⟨_, hr, hrt⟩ => .evaluated hr hrt.halted

theorem factorizeAction_inspection (P : Problem α σ n) (s : Session α σ n) :
    After (factorizeAction P) s (fun _ t => Inspection P s t) fun _ t => Inspection P s t := by
  refine (freshJacobian_inspection P s).bind fun _ t ⟨r, hr, hrt⟩ => ?_
  have hfactor := (tracked_factorize P r t hrt.trail).mono
    (fun _ _ _ h => hrt.trans h) fun _ _ _ h => Inspection.evaluated hr (h.of_steps hrt)
  refine hfactor.bind fun usable u hru => ?_
  split
  · exact .evaluated hr (Steps.halted hru)
  · exact .evaluated hr (Steps.halted hru)

theorem Block.passage (b : Block α σ n) : Passage b.problem b.session b.solve.2.session :=
  Block.perform_after (solveAction_passage b.problem b.session)

theorem Block.inspection (b : Block α σ n) :
    Inspection b.problem b.session b.evaluateJacobian.2.session ∧
      Inspection b.problem b.session b.factorizeJacobian.2.session :=
  ⟨Block.perform_after (jacobianAction_inspection b.problem b.session),
    Block.perform_after (factorizeAction_inspection b.problem b.session)⟩

theorem setPointAction_shift (P : Problem α σ n) (x : Array α) :
    Follows Shift (setPointAction P x) := by
  have hprepare : Follows Shift (prepareUnknowns P) := fun s =>
    (approached_prepareUnknowns P s).mono (fun _ _ _ h => h.shift) fun _ _ _ h => h.shift
  exact follows_setPointAction Shift.refl (fun _ _ _ => Shift.trans) hprepare
    (fun _ _ => ⟨Course.of_eq rfl rfl rfl, rfl⟩) x

theorem Block.setPoint_shift (b : Block α σ n) (x : Array α) :
    Shift b.session (b.setPoint x).2.session :=
  Block.perform_session (setPointAction_shift b.problem x)

theorem Block.trail_after (b : Block α σ n) (operation : Operation α) :
    Trail b.session (b.after operation).session := by
  cases operation with
  | solve => exact b.passage.trail
  | setPoint x => exact (b.setPoint_shift x).course.trail
  | evaluateJacobian => exact b.inspection.1.trail
  | factorizeJacobian => exact b.inspection.2.trail
  | completedOuterStep => exact Course.of_eq rfl rfl rfl

end

end AlgebraicLoop
