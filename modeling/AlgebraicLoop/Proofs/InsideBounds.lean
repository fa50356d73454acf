import AlgebraicLoop.Proofs.HeldRuns
import AlgebraicLoop.Proofs.Rewind
import Mathlib.Algebra.Order.Ring.Rat

/-!
# Solutions inside the bounds

Without rounding, a solve by the damped method that enforces its bounds succeeds inside of them,
with one exception. A refinement of a single unknown searches between two points at which the
residual was evaluated. Where one of these lies outside the bounds, as a point of a difference
quotient may, the root may lie outside too.

* `Reached`, `Session.Sane`: blocks between their operations, and what is known of them;
* `RefinedOutside`: the exception;
* `solve_inside`: the solve.
-/

namespace AlgebraicLoop
set_option autoImplicit false

open Exact

/-- The blocks that are reached from a new one without an event, an accepted outer step or a return
to a checkpoint. -/
inductive Reached {α σ : Type} [Scalar α] {n : Nat} : Block α σ n → Prop where
  | create {label : String} {model : Model α σ n} {state : σ} {options : Options α}
      {auxiliaryCount : Nat} {variability : Variability} {b : Block α σ n} :
      Block.create label model state options auxiliaryCount variability = .ok b → Reached b
  | after {b : Block α σ n} {operation : Operation α} :
      operation ≠ .completedOuterStep → Reached b → Reached (b.after operation)

/-- A model whose start values have their bounds in order. -/
def Model.Ordered {α σ : Type} [Scalar α] {n : Nat} (model : Model α σ n) : Prop :=
  ∀ (s : σ) (values : StartValues α), (model.start (StartValues.default n) s).1 = .ok values →
    ∀ (i : Nat) (hl : i < values.lower.size) (hu : i < values.upper.size),
      values.lower[i] ≤ values.upper[i]

section
variable {K : Type} [Field K] [LinearOrder K] [SquareRoot K] {σ : Type} {n : Nat}
  {P : Problem (Exact K) σ n} {s t u : Session (Exact K) σ n}

/-! ## Blocks that have started -/

/-- A block that has taken its start values, with bounds in order. -/
structure Session.Started (P : Problem (Exact K) σ n) (s : Session (Exact K) σ n) : Prop where
  phase : s.phase ≠ .untouched
  framed : s.Framed P

theorem Session.Started.light (hs : s.Started P) (h : Light s t) : t.Started P := by
  have hphase : t.phase = s.phase := congrArg Prod.fst h.stage
  have hlower : t.lower = s.lower := congrArg Prod.fst h.given
  have hupper : t.upper = s.upper := congrArg (fun p => p.2.1) h.given
  have hnominal : t.nominal = s.nominal := congrArg (fun p => p.2.2) h.given
  have hbox : t.work.box = s.work.box := congrArg Prod.fst h.box
  have hready : t.work.ready = s.work.ready := congrArg (fun p => p.2.2) h.box
  refine ⟨by rw [hphase]; exact hs.phase, ?_⟩
  exact ⟨by rw [hlower, hupper]; exact hs.framed.ordered, by rw [hnominal]; exact hs.framed.nominal,
    by rw [hlower, hupper, hbox, hready]; exact hs.framed.box, h.accepted.trans hs.framed.accepted⟩

/-- Every part of a solve leaves a started block started. -/
theorem lasting_started (P : Problem (Exact K) σ n) : Lasting P (Session.Started P) where
  started _ hs := hs.phase
  light _ _ h hs := hs.light h
  setting _ _ hst hphase hs := ⟨hphase, hs.framed.keep hst⟩
  setUp _ := after_setUp (fun _ => id) fun _ hs =>
    ⟨hs.phase, hs.framed.ordered, hs.framed.nominal, fun _ => rfl, hs.framed.accepted⟩
  rewind _ _ _ hs := ⟨hs.phase, hs.framed.ordered, hs.framed.nominal, hs.framed.box, hs.framed.accepted⟩

end

section
variable {K : Type} [Field K] [LinearOrder K] [IsStrictOrderedRing K] [SquareRoot K] {σ : Type}
  {n : Nat} {P : Problem (Exact K) σ n} {s t u v : Session (Exact K) σ n}

/-! ## Blocks between their operations -/

/-- A block between its operations has started, or nothing has been derived from start values. -/
def Session.Sane (P : Problem (Exact K) σ n) (s : Session (Exact K) σ n) : Prop :=
  s.Started P ∨ s.phase = .untouched ∧ s.work.ready = false ∧ s.work.accepted = none

/-- Start values with bounds in order start a block. -/
theorem JustStarted.started (h : JustStarted P s t) (hmodel : P.model.Ordered)
    (hready : s.work.ready = false) (haccepted : s.work.accepted = none) : t.Started P := by
  refine ⟨by rw [h.phase]; exact Phase.noConfusion, ?_⟩
  obtain ⟨values, hvalues, hlower, hupper⟩ := h.given
  refine ⟨fun i => ?_, fun i => ?_, fun hset => ?_, by rw [h.work]; exact haccepted⟩
  · have hordered := hmodel s.model values hvalues i
    rw [← hlower, ← hupper] at hordered
    simpa using hordered (by simp) (by simp)
  · obtain ⟨v, x, hnominal⟩ := h.nominal i
    obtain ⟨a, ha⟩ := isFinite_iff.1 (repairNominal_finite v t.lower[i] t.upper[i] x)
    rw [hnominal, ha]
    exact finite_ne_nan a
  · rw [h.work, hready] at hset
    exact absurd hset Bool.false_ne_true

theorem prepareUnknowns_sane (hmodel : P.model.Ordered) (hs : s.Sane P) :
    After (prepareUnknowns P) s (fun _ t => t.Started P) fun _ t => t.Sane P := by
  obtain hs | ⟨hphase, hready, haccepted⟩ := hs
  · exact ((lasting_started P).prepareUnknowns s).mono (fun _ _ _ h => h hs)
      fun _ _ _ h => .inl (h hs)
  · refine (prepareUnknowns_untouched P hphase).mono (fun _ t _ h => ?_) fun _ t _ h => ?_
    · exact h.started hmodel hready haccepted
    · exact .inr ⟨h.phase.trans hphase, by rw [h.work]; exact hready,
        by rw [h.work]; exact haccepted⟩

omit [IsStrictOrderedRing K] in
theorem Session.Sane.counted (hs : s.Sane P) (solves : Nat) :
    ({ s with counters := { s.counters with solves } } : Session (Exact K) σ n).Sane P :=
  hs.imp (fun h => h.light ⟨rfl, rfl, .inl rfl, rfl, rfl, .inl rfl, rfl, rfl, rfl, rfl⟩) id

/-- Whatever was asked of it, a block is sane between its operations. -/
theorem Reached.sane {b : Block (Exact K) σ n} (hb : Reached b) (hmodel : b.problem.model.Ordered) :
    b.session.Sane b.problem := by
  induction hb with
  | create h =>
    obtain ⟨_, rfl⟩ := Block.create_eq_ok h
    exact .inr ⟨rfl, rfl, rfl⟩
  | @after b operation hne _ ih =>
    rw [Block.after_problem] at hmodel ⊢
    have hs := ih hmodel
    exact (lasting_started b.problem).after (fun _ => .inl)
      (fun k => prepareUnknowns_sane hmodel (hs.counted k)) hs hne

/-! ## The start of a solve -/

/-- A solve that comes to its method begins it at a point inside the bounds. -/
theorem prelude_inside (hP : Confining P.options) (hmodel : P.model.Ordered) (hs : s.Sane P)
    (h : prelude P s = .ok () t) : t.Started P ∧ t.Inside := by
  unfold prelude at h
  rw [modify_bind_apply] at h
  obtain ⟨_, u, hu, h⟩ := bind_eq_ok.1 h
  have hstarted := (prepareUnknowns_sane hmodel (hs.counted _)).ok hu
  have hpoint : startingPoint P u = project u.lower u.upper u.x := if_pos hP.enforce
  rw [approach_apply, hpoint] at h
  have hprojected : ({ u with x := project u.lower u.upper u.x } :
      Session (Exact K) σ n).Started P := ⟨hstarted.phase, hstarted.framed.keep rfl⟩
  have hinside : ({ u with x := project u.lower u.upper u.x } :
      Session (Exact K) σ n).Inside := fun i => within_project (hstarted.framed.ordered i) u.x
  split at h
  · have hkeep := (course_updateAuxiliary P _).ok h
    exact ⟨((lasting_started P).closed.auxiliary _).ok h hprojected,
      hinside.keep (congrArg Footing.toSpot hkeep.keeps)⟩
  · cases h
    exact ⟨hprojected, hinside⟩

theorem restartFromNominal_held (hP : Confining P.options) (hs : s.Held P)
    (h : restartFromNominal P s = .ok () t) : t.Held P := by
  obtain ⟨x, hguess, rfl⟩ := restartFromNominal_ok h
  rw [hP.enforce] at hguess
  exact hs.move rfl fun i => within_nominalGuess hguess (hs.framed.nominal i)

theorem checkStartingPoint_held (hP : Confining P.options) (hs : s.Held P)
    (h : checkStartingPoint P s = .ok () t) : t.Held P := by
  unfold checkStartingPoint at h
  rw [get_bind_apply] at h
  obtain ⟨answer, u, hu, h⟩ := bind_eq_ok.1 h
  have hheld := hs.keep (spot_of_footing (course_evaluate P _) hu)
  cases answer with
  | ok _ =>
    cases h
    exact hheld
  | error mishap =>
    dsimp only at h
    split at h
    · obtain ⟨_, v, hv, h⟩ := bind_eq_ok.1 h
      have hrestarted := restartFromNominal_held hP hheld hv
      rw [notify_bind_apply, get_bind_apply] at h
      obtain ⟨answer, w, hw, h⟩ := bind_eq_ok.1 h
      have hnoticed : ({ v with notices := v.notices.push (.guessUndefined mishap) } :
          Session (Exact K) σ n).Held P := hrestarted.keep rfl
      have hagain := hnoticed.keep (spot_of_footing (course_evaluate P _) hw)
      cases answer with
      | ok _ =>
        cases h
        exact hagain
      | error _ => cases h
    · cases h

omit [IsStrictOrderedRing K] in
theorem settlePoint_held {first first' : Bool} (hs : s.Held P)
    (h : settlePoint P first s = .ok first' t) : t.Held P := by
  have hunpinned : s.unpinned.Held P := hs.keep rfl
  rw [settlePoint_apply] at h
  split at h
  · obtain ⟨_, u, hu, h⟩ := bind_eq_ok.1 h
    cases h
    exact hunpinned.keep ((course_updateResidualScales P).ok hu).keeps
  · cases h
    exact hunpinned

/-- A solve makes its first attempt inside the bounds. Without an accepted outer step, it begins where
it is. -/
theorem openSolve_held (hP : Confining P.options) {first : Bool} (hs : s.Started P)
    (hinside : s.Inside) (h : openSolve P s = .ok first t) : t.Held P := by
  cases hready : s.work.ready with
  | false =>
    have hderived := (lasting_started P).setUp.ok (setUp_unready P hready) hs
    have hheld : (s.derived P).Held P := ⟨hderived.framed, rfl, hinside⟩
    have hemptied : (s.derived P).emptied.Held P := hheld.keep rfl
    rw [openSolve_unready P hready] at h
    obtain ⟨_, u, hu, h⟩ := bind_eq_ok.1 h
    exact settlePoint_held (checkStartingPoint_held hP hemptied hu) h
  | true =>
    have hheld : s.Held P := ⟨hs.framed, hready, hinside⟩
    rw [openSolve_stays hready (resumed?_of_accepted hs.framed.accepted)] at h
    exact settlePoint_held (s := s.emptied) (hheld.keep rfl) h

/-! ## The attempts of a solve -/

/-- Between the two sessions a root of the single unknown was found outside the bounds, in a search
between two points on different sides of zero, of which one lies outside the bounds as well. -/
def RefinedOutside (s t : Session (Exact K) σ n) : Prop :=
  ∃ below above root, Straddles s t below above ∧ RootOn s t root ∧
    ∃ i : Fin n, ¬ Within t.lower[i] t.upper[i] root.x ∧
      ¬ (Within t.lower[i] t.upper[i] below.x ∧ Within t.lower[i] t.upper[i] above.x)

omit [IsStrictOrderedRing K] in
theorem RefinedOutside.later (h : RefinedOutside s t) (hst : Trail s t)
    (htu : Trail t u) (hlower : u.lower = t.lower) (hupper : u.upper = t.upper) :
    RefinedOutside s u := by
  obtain ⟨below, above, root, hends, hroot, i, hi⟩ := h
  refine ⟨below, above, root, hends.later hst htu, hroot.later hst htu, i, ?_⟩
  rw [hlower, hupper]
  exact hi

/-- A solve that began in `s` and has come to `t` is inside the bounds, unless it was refined to a
root outside of them. -/
structure Guarded (P : Problem (Exact K) σ n) (s t : Session (Exact K) σ n) (refined : Bool) :
    Prop where
  trail : Trail s t
  verdict : t.Held P ∨ refined = true ∧ RefinedOutside s t

omit [IsStrictOrderedRing K] in
/-- What keeps the setting and leads from points inside to points inside guards the solve. -/
theorem Guarded.onward {refined : Bool} (h : Guarded P s t refined)
    (hcourse : Course (Session.setting P) t u) (hheld : t.Held P → u.Held P) :
    Guarded P s u refined := by
  refine ⟨h.trail.trans hcourse.trail, h.verdict.imp hheld (And.imp_right fun houtside => ?_)⟩
  exact houtside.later h.trail hcourse.trail (congrArg Setting.lower hcourse.keeps)
    (congrArg Setting.upper hcourse.keeps)

theorem Guarded.run (hP : Confining P.options) {refined descent : Bool}
    {tol : Tolerances (Exact K)} {attempt : Attempt (Exact K)} (h : Guarded P s t refined)
    (hrun : runDamped P tol descent t = .ok attempt u) : Guarded P s u refined :=
  h.onward (((course_runDamped P tol descent).ok hrun).coarser (congrArg Stage.toSetting))
    fun ht => runDamped_held hP ht hrun

/-- A refinement ends inside the bounds, or one of the points it searched between lies outside. -/
theorem Refinement.guarded {e : Session (Exact K) σ n} {below above : Sample (Exact K)}
    (h : Refinement P t u below above) (hse : Trail s e) (he : e.bracket = {}) (het : Trail e t)
    (htu : Trail t u) (ht : t.Held P) : Guarded P s u true := by
  have hends := straddles_of_interval het he h.interval
  obtain ⟨_, found, v, hv, hconverged, hmove⟩ := h.search
  have hkeep := (course_findRoot P _ below above 0).ok hv
  have hroot := findRoot_ok het hends hv hconverged
  cases hmove
  have hlower : v.lower = t.lower := congrArg (fun p => p.lower) hkeep.keeps
  have hupper : v.upper = t.upper := congrArg (fun p => p.upper) hkeep.keeps
  refine ⟨(hse.trans het).trans htu, ?_⟩
  by_cases hall : ∀ i : Fin n, Within t.lower[i] t.upper[i] found.point.x
  · left
    refine ht.move (congrArg (fun p : Footing (Exact K) n => p.toSetting) hkeep.keeps) fun i => ?_
    have hx : (Vector.replicate n found.point.x)[i] = found.point.x :=
      Vector.getElem_replicate i.isLt
    change Within v.lower[i] v.upper[i] (Vector.replicate n found.point.x)[i]
    rw [hlower, hupper, hx]
    exact hall i
  · obtain ⟨i, hi⟩ := not_forall.1 hall
    have houtside : ¬ (Within t.lower[i] t.upper[i] below.x ∧ Within t.lower[i] t.upper[i] above.x) :=
      fun ⟨hbelow, habove⟩ =>
        hi (findRoot_within ⟨hends.proper.1, hbelow⟩ ⟨hends.proper.2, habove⟩ hv).within
    have hev := het.trans hkeep.trail
    have hrefined : RefinedOutside s v := by
      refine ⟨below, above, found.point, ?_, hroot.since hse hev, i, ?_⟩
      · exact (hends.later het hkeep.trail).since hse hev
      · rw [hlower, hupper]
        exact ⟨hi, houtside⟩
    exact .inr ⟨rfl, hrefined.later (hse.trans hev) (Course.of_eq rfl rfl rfl) rfl rfl⟩

theorem firstAttempt_guarded (hP : Confining P.options) {standing : Standing (Exact K)}
    {e : Session (Exact K) σ n} (hse : Trail s e) (he : e.bracket = {}) (het : Trail e t)
    (ht : t.Held P) (h : firstAttempt P t = .ok standing u) :
    Guarded P s u standing.report.refined := by
  obtain ⟨attempt, v, hv, hrefine⟩ := firstAttempt_ok h
  have hmarked : ({ t with work := { t.work with firstAttempt := true, retrying := false } } :
      Session (Exact K) σ n).Held P := ht.move rfl ht.inside
  have hrun := runDamped_held hP hmarked hv
  have hunmarked : ({ v with work := { v.work with firstAttempt := false } } :
      Session (Exact K) σ n).Held P := hrun.move rfl hrun.inside
  have hev : Trail e { v with work := { v.work with firstAttempt := false } } := by
    have hstart : Trail t { t with work := { t.work with
      firstAttempt := true, retrying := false } } := Course.of_eq rfl rfl rfl
    have hend : Trail v { v with work := { v.work with firstAttempt := false } } :=
      Course.of_eq rfl rfl rfl
    exact ((het.trans hstart).trans ((course_runDamped P _ _).ok hv).trail).trans hend
  have hrefined := ((course_refineAttempt P attempt).ok hrefine).trail
  obtain ⟨_, _, hkeep⟩ | ⟨htrue, _, below, above, hrefinement⟩ := refineAttempt_cases hrefine
  · exact ⟨(hse.trans hev).trans hrefined,
      .inl (hunmarked.keep (congrArg Footing.toSpot hkeep.keeps))⟩
  · rw [htrue]
    exact hrefinement.guarded hse he hev hrefined hunmarked

theorem tryDescent_guarded (hP : Confining P.options) {standing standing' : Standing (Exact K)}
    (h : Guarded P s t standing.report.refined) (hdescent : tryDescent P standing t = .ok standing' u) :
    Guarded P s u standing'.report.refined := by
  obtain ⟨rfl, rfl⟩ | ⟨attempt, _, hrun, rfl⟩ := tryDescent_ok hdescent
  · exact h
  · have hnoticed := h.onward (u := { t with notices := t.notices.push .descentRetry })
      (Course.of_eq rfl rfl rfl) fun ht => ht.keep rfl
    exact hnoticed.run hP hrun

theorem rescaledRetry_guarded (hP : Confining P.options) {refined : Bool}
    {retry : Attempt (Exact K)} (h : Guarded P s t refined)
    (hrun : rescaledRetry P t = .ok retry u) : Guarded P s u refined := by
  obtain ⟨v, w, hv, hw, rfl⟩ := rescaledRetry_runs hrun
  have hscales := (course_updateResidualScales P).ok hv
  have hscaled := h.onward (hscales.coarser (congrArg fun p : Spot (Exact K) n => p.toSetting))
    fun ht => ht.keep hscales.keeps
  have hmarked := hscaled.onward
    (u := { v with work := { v.work with retrying := true } })
    (Course.of_eq rfl rfl rfl) fun ht => ht.move rfl ht.inside
  exact (hmarked.run hP hw).onward (Course.of_eq rfl rfl rfl) fun ht => ht.move rfl ht.inside

theorem tryRescaled_guarded (hP : Confining P.options) {first : Bool}
    {standing standing' : Standing (Exact K)} (h : Guarded P s t standing.report.refined)
    (hrun : tryRescaled P first standing t = .ok standing' u) :
    Guarded P s u standing'.report.refined := by
  obtain ⟨rfl, rfl⟩ | ⟨retry, v, _, _, hretry, rfl, rfl⟩ := tryRescaled_ok hrun
  · exact h
  have hnoticed := h.onward
    (u := { t with notices := standing.rescalingNotices t.notices })
    (Course.of_eq rfl rfl rfl) fun ht => ht.keep rfl
  exact (rescaledRetry_guarded hP hnoticed hretry).onward (Course.of_eq rfl rfl rfl) fun ht =>
    ht.keep rfl

theorem tryNominal_guarded (hP : Confining P.options) {standing standing' : Standing (Exact K)}
    (h : Guarded P s t standing.report.refined) (hnominal : tryNominal P standing t = .ok standing' u) :
    Guarded P s u standing'.report.refined := by
  obtain ⟨rfl, rfl⟩ | ⟨x, attempt, _, hguess, hrun, rfl⟩ := tryNominal_ok hnominal
  · exact h
  · have hrestarted := h.onward
      (u := { t with
        x
        work := { t.work with jacobianAtPoint := false }
        notices := t.notices.push .nominalRetry })
      (Course.of_eq rfl rfl rfl) fun ht => ht.move rfl fun i => by
        rw [hP.enforce] at hguess
        exact within_nominalGuess hguess (ht.framed.nominal i)
    exact hrestarted.run hP hrun

/-- A solve that succeeds is guarded to its end. -/
theorem solveDamped_guarded (hP : Confining P.options) (hmodel : P.model.Ordered) (hs : s.Sane P)
    {report : Report (Exact K)} (hprelude : prelude P s = .ok () t)
    (h : solveDamped P t = .ok report u) : Guarded P s u report.refined := by
  obtain ⟨hstarted, hinside⟩ := prelude_inside hP hmodel hs hprelude
  obtain ⟨first, opening, rescaled, final, v, w, y, hopening, hrescaled, hnominal, hclose⟩ :=
    solveDamped_ok hprelude h
  obtain ⟨_, t', hprelude', hopening⟩ := bind_eq_ok.1 hopening
  obtain rfl : t = t' := by
    rw [hprelude] at hprelude'
    cases hprelude'
    rfl
  obtain ⟨_, o, hopen, hopening⟩ := bind_eq_ok.1 hopening
  obtain ⟨standing, a, hfirst, hopening⟩ := bind_eq_ok.1 hopening
  obtain ⟨_, b, hdescent, hopening⟩ := bind_eq_ok.1 hopening
  cases hopening
  obtain ⟨e, he, hte, heo⟩ := openSolve_ok hopen
  have hse := ((routine_course P).prelude.ok hprelude).trail.trans hte
  have hheld := openSolve_held hP hstarted hinside hopen
  have hguarded := firstAttempt_guarded hP hse he heo hheld hfirst
  have hopened := tryDescent_guarded hP hguarded hdescent
  have hretried := tryNominal_guarded hP (tryRescaled_guarded hP hopened hrescaled) hnominal
  obtain ⟨_, hrefined, rfl⟩ := closeSolve_ok hclose
  rw [hrefined]
  exact hretried.onward (Course.of_call rfl rfl rfl) fun ht => ht.keep rfl

/-- Without rounding, a solve that succeeds ends inside the bounds, or was refined to a root outside
of them. -/
theorem solve_inside {b b' : Block (Exact K) σ n} {report : Report (Exact K)} (hb : Reached b)
    (hmethod : b.problem.options.method = .damped) (hP : Confining b.problem.options)
    (hmodel : b.problem.model.Ordered) (h : b.solve = (.ok report, b')) :
    (∀ i : Fin n, b'.session.lower[i] ≤ b'.session.x[i] ∧
        b'.session.x[i] ≤ b'.session.upper[i]) ∨
      (report.refined = true ∧ RefinedOutside b.session b'.session) := by
  obtain ⟨t, hrun, rfl⟩ := solve_eq_ok.1 h
  obtain ⟨u, v, hprelude, hsolve, rfl⟩ := solveAction_ok hrun
  unfold solveByMethod at hsolve
  rw [hmethod] at hsolve
  have hguarded := solveDamped_guarded hP hmodel (hb.sane hmodel) hprelude hsolve
  have hmarks : Trail v v.unmarked := Course.of_eq rfl rfl rfl
  obtain hheld | ⟨hrefined, houtside⟩ := hguarded.verdict
  · exact .inl hheld.inside
  · exact .inr ⟨hrefined, houtside.later hguarded.trail hmarks rfl rfl⟩

end

/-! ## A block of rational numbers -/

/-- Square roots of rational numbers, exact for squares and else to twenty digits of the numerator. -/
instance instSquareRootRat : SquareRoot ℚ where
  root x := (Nat.sqrt (x.num.toNat * x.den * 10 ^ 40) : ℚ) / (x.den * 10 ^ 20)

/-- A block with narrow bounds, and a root below them. -/
def narrowBlock : Block (Exact ℚ) Unit 1 where
  problem :=
    { label := "loop"
      options := Options.standard
      model :=
        { Model.ofFunction fun x => .ok (x.map fun x => x - 0.999999995) with
          start := fun values s =>
            (.ok { values with lower := #[1], upper := #[1.000000001], initial := #[1] }, s) }
      auxiliaryCount := 0
      variability := .continuous }
  session := Session.fresh 1 ()

theorem narrowBlock_reached : Reached narrowBlock :=
  @Reached.create (Exact ℚ) Unit _ 1 "loop" narrowBlock.problem.model () Options.standard 0
    .continuous narrowBlock rfl

theorem narrowBlock_ordered : narrowBlock.problem.model.Ordered := by
  intro s values h i hl hu
  cases h
  obtain rfl : i = 0 := by
    change i < 1 at hl
    omega
  change (1 : Exact ℚ) ≤ 1.000000001
  decide +kernel

theorem narrowBlock_confining : Confining narrowBlock.problem.options where
  enforce := rfl
  factor c h := by
    cases h
    decide +kernel

set_option maxRecDepth 100000 in
/-- A difference quotient that is turned round at the upper bound takes a point below the lower one,
and the refinement finds the root there. -/
theorem solve_inside_narrow :
    ∃ report b', narrowBlock.solve = (.ok report, b') ∧
      getElem b'.session.x 0 Nat.zero_lt_one < getElem b'.session.lower 0 Nat.zero_lt_one ∧
      report.refined = true ∧ RefinedOutside narrowBlock.session b'.session := by
  have hsolves : narrowBlock.solvesTo
      (fun b => decide (b.session.x[0] < b.session.lower[0])) = true := by decide +kernel
  obtain ⟨report, b', hsolve, hbelow⟩ := Block.exists_of_solvesTo hsolves
  have hbelow : b'.session.x[0] < b'.session.lower[0] := of_decide_eq_true hbelow
  refine ⟨report, b', hsolve, hbelow, ?_⟩
  refine (solve_inside narrowBlock_reached rfl narrowBlock_confining narrowBlock_ordered
    hsolve).resolve_left fun hinside => ?_
  exact LawfulScalar.not_lt_of_le (hinside 0).1 hbelow

end AlgebraicLoop
