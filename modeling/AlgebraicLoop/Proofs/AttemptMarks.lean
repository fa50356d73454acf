import AlgebraicLoop.Proofs.StartingOver
import AlgebraicLoop.Proofs.UnsolvedBlocks

/-!
# The marks of the attempts

Two attempts of a solve run under a mark: the first one, in which residual scales may be tightened,
and the retry with new scales, in which the options may ask for differences to both sides. An attempt
that comes to its end has its mark lowered. A fatal answer within it ends the solve before that. Then
the mark stays up until a solve gets to its first attempt, or the block is torn down.

* `MarkedAttempt`, `Session.cutShort?`: these attempts, and the one within which a solve is cut short;
* `firstAttempt_flags`, `tryRescaled_flags`, `afterOpening_flags`: the marks that each part leaves;
* `LeavesMarks`, `Block.solve_leavesMarks`: the marks that a whole solve leaves;
* `Carries`, `Carries.marked`: the mark that a block carries after all that was done with it;
* `marks_after_solve`: when a solve leaves no mark.
-/

namespace AlgebraicLoop
set_option autoImplicit false

/-- The attempts of a solve that run under a mark. -/
inductive MarkedAttempt where
  | first
  | retry
  deriving DecidableEq, Repr

/-- The marks that are up when one of these attempts was cut short, or none was. -/
def marksOf : Option MarkedAttempt → Bool × Bool
  | none => (false, false)
  | some .first => (true, false)
  | some .retry => (false, true)

section
variable {α σ : Type} [Scalar α] {n : Nat}

/-! ## Solves that are cut short -/

/-- A marked attempt from where its mark is raised. -/
def MarkedAttempt.run (P : Problem α σ n) : MarkedAttempt → Action α σ n (Attempt α)
  | .first => do
    modifyWork fun w => { w with firstAttempt := true, retrying := false }
    runDamped P (P.options.firstTolerances n) false
  | .retry => do
    modifyWork fun w => { w with retrying := true }
    runDamped P P.options.retryTolerances false

/-- The attempt, if it halts that begins in the given session. -/
def MarkedAttempt.cut? (P : Problem α σ n) (a : MarkedAttempt) :
    Option (Session α σ n) → Option MarkedAttempt
  | none => none
  | some s =>
    match a.run P s with
    | .ok _ _ => none
    | .error _ _ => some a

/-- The session in which the retry begins, if it is due and its scales can be computed. -/
def retryStart? (P : Problem α σ n) (first : Bool) (standing : Standing α) (s : Session α σ n) :
    Option (Session α σ n) :=
  if P.options.residualScaling ≠ .none ∧ (first = true ∨ standing.attempt.failed = true) then
    match updateResidualScales P { s with notices := standing.rescalingNotices s.notices } with
    | .ok _ t => some t
    | .error _ _ => none
  else none

/-- The retry of a solve whose first attempt begins in the given session. -/
def laterStart? (P : Problem α σ n) (first : Bool) (s : Session α σ n) :
    Option (Session α σ n) :=
  match (firstAttempt P >>= tryDescent P) s with
  | .ok standing t => retryStart? P first standing t
  | .error _ _ => none

/-- The marked attempt within which a solve halts whose first attempt begins in the given session. -/
def cutWithin? (P : Problem α σ n) (first : Bool) (s : Session α σ n) : Option MarkedAttempt :=
  (MarkedAttempt.first.cut? P (some s)).or (MarkedAttempt.retry.cut? P (laterStart? P first s))

/-- Everything before the first attempt of a solve. -/
def toFirstAttempt (P : Problem α σ n) : Action α σ n Bool := do
  prelude P
  openSolve P

/-- Does a solve from the given session get to its first attempt? -/
def Session.opens (P : Problem α σ n) (s : Session α σ n) : Bool :=
  match toFirstAttempt P s with
  | .ok _ _ => true
  | .error _ _ => false

/-- The marked attempt within which a solve from the given session halts. -/
def Session.cutShort? (P : Problem α σ n) (s : Session α σ n) : Option MarkedAttempt :=
  match toFirstAttempt P s with
  | .ok first t => cutWithin? P first t
  | .error _ _ => none

/-! ## The marks that each part leaves -/

variable {P : Problem α σ n} {s t : Session α σ n}

/-- A fatal answer of the model. -/
def Halt.Fatal (halt : Halt α) : Prop :=
  ∃ request reason, halt = .fault (.modelFatal request reason)

omit [Scalar α] in
theorem Aborted.fatal {halt : Halt α} (h : Aborted s t halt) : halt.Fatal := by
  obtain ⟨_, _, request, reason, _, _, _, hhalt⟩ := h.last
  exact ⟨request, reason, hhalt⟩

/-- The session has the marks of the attempt, if any, within which a solve halted, and it halted there
with a fatal answer. -/
structure CutShort (cut : Option MarkedAttempt) (halt : Halt α) (t : Session α σ n) : Prop where
  flags : t.flags = marksOf cut
  fatal : ∀ a, cut = some a → halt.Fatal

omit [Scalar α] in
theorem CutShort.outside {halt : Halt α} (h : t.flags = marksOf none) : CutShort none halt t :=
  ⟨h, nofun⟩

namespace MarkedAttempt
variable {a : MarkedAttempt} {halt : Halt α}

theorem cut?_of_ok {attempt : Attempt α} (h : a.run P s = .ok attempt t) :
    a.cut? P (some s) = none := by
  unfold cut?
  dsimp only
  rw [h]

theorem cut?_of_error (h : a.run P s = .error halt t) : a.cut? P (some s) = some a := by
  unfold cut?
  dsimp only
  rw [h]

/-- Only a fatal answer of the model ends a marked attempt before its verdict. -/
theorem run_fatal [LawfulScalar α] (h : a.run P s = .error halt t) : halt.Fatal := by
  cases a with
  | first => exact ((orderly_runDamped P _ _ _).error h).fatal
  | retry => exact ((orderly_runDamped P _ _ _).error h).fatal

end MarkedAttempt

theorem keeps_flags {β : Type} {a : Action α σ n β} (h : Follows (Course Session.flags) a)
    (s : Session α σ n) : After a s (fun _ t => t.flags = s.flags) fun _ t => t.flags = s.flags :=
  (h s).mono (fun _ _ _ ht => ht.keeps) fun _ _ _ ht => ht.keeps

theorem flags_runDamped (P : Problem α σ n) (tol : Tolerances α) (descent : Bool) :
    Follows (Course Session.flags) (runDamped P tol descent) :=
  (routine_course P).closed.runDamped (routine_course P).lineSearch tol descent

theorem firstAttempt_marked (P : Problem α σ n) :
    firstAttempt P = MarkedAttempt.first.run P >>= endFirst P := rfl

theorem endFirst_flags (P : Problem α σ n) (attempt : Attempt α)
    (hs : s.flags = marksOf (some .first)) :
    After (endFirst P attempt) s (fun _ t => t.flags = marksOf none)
      fun _ t => t.flags = marksOf none := by
  have hR := routine_course P
  have hlowered : ({ s with work := { s.work with firstAttempt := false } } : Session α σ n).flags =
      marksOf none := congrArg (fun p : Bool × Bool => (false, p.2)) hs
  have hrefine := keeps_flags (hR.closed.refineAttempt (fun _ hf s => hf s s) attempt)
    { s with work := { s.work with firstAttempt := false } }
  unfold endFirst
  rw [after_congr (modifyWork_bind_apply _ _ _)]
  refine After.bind (R := fun _ t => t.flags = marksOf none) ?_ fun _ _ ht => ht
  exact hrefine.mono (fun _ _ _ ht => ht.trans hlowered) fun _ _ _ ht => ht.trans hlowered

/-- The first attempt lowers its mark, unless it is cut short. -/
theorem firstAttempt_flags [LawfulScalar α] (P : Problem α σ n) (s : Session α σ n) :
    After (firstAttempt P) s
      (fun _ t => t.flags = marksOf none ∧ MarkedAttempt.first.cut? P (some s) = none)
      fun halt t => CutShort (MarkedAttempt.first.cut? P (some s)) halt t := by
  have hmarked : After (MarkedAttempt.first.run P) s (fun _ t => t.flags = marksOf (some .first))
      fun _ t => t.flags = marksOf (some .first) :=
    keeps_flags (flags_runDamped P _ _)
      { s with work := { s.work with firstAttempt := true, retrying := false } }
  rw [firstAttempt_marked, after_bind]
  refine hmarked.mono (fun attempt u hu hflags => ?_) fun halt u hu hflags => ?_
  · rw [MarkedAttempt.cut?_of_ok hu]
    exact (endFirst_flags P attempt hflags).mono (fun _ _ _ ht => ⟨ht, rfl⟩)
      fun _ _ _ ht => .outside ht
  · rw [MarkedAttempt.cut?_of_error hu]
    exact ⟨hflags, fun _ _ => MarkedAttempt.run_fatal hu⟩

/-- What follows on a retry: its mark is lowered, and the verdict on the attempts so far. -/
def endRetry (P : Problem α σ n) (standing : Standing α) (retry : Attempt α) :
    Action α σ n (Standing α) := do
  modifyWork fun w => { w with retrying := false }
  if (standing.after retry).failed then
    modifyWork fun w =>
      { w with flags.forceNewJacobian := true, flags.forceRescaling := true }
  pure ⟨standing.after retry, standing.report.add retry, P.options.retryTolerances.step⟩

theorem tryRescaled_eq (P : Problem α σ n) {first : Bool} {standing : Standing α}
    (hdue : P.options.residualScaling ≠ .none ∧ (first = true ∨ standing.attempt.failed = true))
    (s : Session α σ n) :
    tryRescaled P first standing s =
      (updateResidualScales P >>= fun _ => MarkedAttempt.retry.run P >>= endRetry P standing)
        { s with notices := standing.rescalingNotices s.notices } := by
  rw [tryRescaled_apply, if_pos hdue]
  unfold rescaledRetry
  simp only [bind_assoc, pure_bind]
  rfl

theorem endRetry_flags (P : Problem α σ n) (standing : Standing α) (retry : Attempt α)
    (hs : s.flags = marksOf (some .retry)) :
    After (endRetry P standing retry) s (fun _ t => t.flags = marksOf none)
      fun _ _ => False := by
  have hlowered : (s.work.firstAttempt, false) = marksOf none :=
    congrArg (fun p : Bool × Bool => (p.1, false)) hs
  unfold endRetry
  rw [after_congr (modifyWork_bind_apply _ _ _)]
  dsimp only
  split
  · exact hlowered
  · exact hlowered

/-- The rescaled retry lowers its mark, unless it is cut short. -/
theorem tryRescaled_flags [LawfulScalar α] (P : Problem α σ n) (first : Bool) (standing : Standing α)
    (hs : s.flags = marksOf none) :
    After (tryRescaled P first standing) s
      (fun _ t => t.flags = marksOf none ∧
        MarkedAttempt.retry.cut? P (retryStart? P first standing s) = none)
      fun halt t =>
        CutShort (MarkedAttempt.retry.cut? P (retryStart? P first standing s)) halt t := by
  unfold retryStart?
  by_cases hdue : P.options.residualScaling ≠ .none ∧
      (first = true ∨ standing.attempt.failed = true)
  · rw [if_pos hdue, after_congr (tryRescaled_eq P hdue s), after_bind]
    have hscales := keeps_flags (routine_course P).closed.spot.updateResidualScales
      { s with notices := standing.rescalingNotices s.notices }
    refine hscales.mono (fun _ u hu hflags => ?_) fun halt u hu hflags => ?_
    · have hraised : ({ u with work := { u.work with retrying := true } } : Session α σ n).flags =
          marksOf (some .retry) :=
        congrArg (fun p : Bool × Bool => (p.1, true)) (hflags.trans hs)
      have hmarked : After (MarkedAttempt.retry.run P) u
          (fun _ t => t.flags = marksOf (some .retry)) fun _ t => t.flags = marksOf (some .retry) :=
        (keeps_flags (flags_runDamped P _ _) _).mono (fun _ _ _ ht => ht.trans hraised)
          fun _ _ _ ht => ht.trans hraised
      rw [hu, after_bind]
      dsimp only
      refine hmarked.mono (fun retry v hv hretry => ?_) fun halt v hv hretry => ?_
      · rw [MarkedAttempt.cut?_of_ok hv]
        exact (endRetry_flags P standing retry hretry).mono (fun _ _ _ ht => ⟨ht, rfl⟩)
          fun _ _ _ h => h.elim
      · rw [MarkedAttempt.cut?_of_error hv]
        exact ⟨hretry, fun _ _ => MarkedAttempt.run_fatal hv⟩
    · rw [hu]
      exact .outside (hflags.trans hs)
  · rw [if_neg hdue]
    unfold tryRescaled
    rw [if_neg hdue]
    exact ⟨hs, rfl⟩

/-- What follows on the opening of a solve leaves a mark only where it is cut short. -/
theorem afterOpening_flags [LawfulScalar α] (P : Problem α σ n) (first : Bool) (s : Session α σ n) :
    After (afterOpening P first) s
      (fun _ t => t.flags = marksOf none ∧ cutWithin? P first s = none)
      fun halt t => CutShort (cutWithin? P first s) halt t := by
  have hR := routine_course P
  unfold cutWithin? laterStart?
  rw [afterOpening_eq, bind_assoc, bind_assoc, after_bind]
  have hopened : After (firstAttempt P >>= tryDescent P) s
      (fun _ t => t.flags = marksOf none ∧ MarkedAttempt.first.cut? P (some s) = none)
      fun halt t => CutShort (MarkedAttempt.first.cut? P (some s)) halt t := by
    refine (firstAttempt_flags P s).bind fun standing u ⟨hu, hcut⟩ => ?_
    have hdescent := keeps_flags (hR.closed.tryDescent hR.lineSearch standing) u
    refine hdescent.mono (fun _ _ _ ht => ⟨ht.trans hu, hcut⟩) fun _ _ _ ht => ?_
    rw [hcut]
    exact .outside (ht.trans hu)
  refine hopened.mono (fun standing u hu ⟨hflags, hcut⟩ => ?_) fun halt u hu h => ?_
  · rw [hu, hcut, Option.none_or]
    dsimp only
    refine (tryRescaled_flags P first standing hflags).bind fun standing v ⟨hv, hnone⟩ => ?_
    rw [hnone]
    have hrest : Follows (Course Session.flags) (tryNominal P standing >>= closeSolve P) :=
      hR.bind (hR.tryNominal standing)
        (hR.closeSolve fun _ _ _ => Course.of_eq rfl rfl rfl)
    exact (keeps_flags hrest v).mono (fun _ _ _ ht => ⟨ht.trans hv, rfl⟩)
      fun _ _ _ ht => .outside (ht.trans hv)
  · rw [hu]
    dsimp only [MarkedAttempt.cut?]
    rw [Option.or_none]
    exact h

/-! ## The marks that a solve leaves -/

theorem toFirstAttempt_flags (P : Problem α σ n) (s : Session α σ n) :
    After (toFirstAttempt P) s (fun _ t => t.flags = s.flags) fun _ t => t.flags = s.flags :=
  have hR := routine_course P
  keeps_flags (hR.bind hR.prelude fun _ => hR.openSolve) s

/-- A solve of a block that has been set up is not refused before its first attempt. -/
theorem toFirstAttempt_setUp (hs : s.SetUp) : After (toFirstAttempt P) s
    (fun _ _ => True) fun halt _ => ¬ halt.Refuses := by
  refine After.bind (R := fun _ t => t.work.ready = true) ?_ fun _ t ht => ?_
  · refine (prelude_after P s hs.started).mono (fun _ t _ h => h.2.2.trans hs.ready)
      fun halt t _ h => ?_
    obtain ⟨request, reason, rfl⟩ := h.fatal
    exact alien_refuses.fatal request reason
  · have hback : Shuns Halt.Refuses (startFromAccepted P) := shuns_startFromAccepted P
    rw [after_congr (openSolve_ready P ht)]
    exact (hback.bind fun _ => shuns_settlePoint alien_refuses P false) _

/-- Before its first attempt no solve comes to the verdict that it did not converge. -/
theorem toFirstAttempt_undecided (P : Problem α σ n) (s : Session α σ n) :
    After (toFirstAttempt P) s (fun _ _ => True) fun halt _ => ¬ halt.Decides := by
  have hprelude : After (prelude P) s (fun _ _ => True) fun halt _ => ¬ halt.Decides :=
    (prelude_leaves_started P s).mono (fun _ _ _ _ => trivial) fun _ _ _ h hdecides => by
      obtain ⟨details, hhalt⟩ := hdecides
      exact h details hhalt
  exact hprelude.bind fun _ t _ => shuns_openSolve alien_decides (fun _ => nofun) P t

/-- A solve that gets to its first attempt has set its block up. -/
theorem toFirstAttempt_leaves_setUp (P : Problem α σ n) (s : Session α σ n) :
    After (toFirstAttempt P) s (fun _ t => t.SetUp) fun _ _ => True := by
  have hprelude : After (prelude P) s (fun _ t => t.phase ≠ .untouched) fun _ _ => True :=
    (prelude_leaves_started P s).mono (fun _ _ _ h => h) fun _ _ _ _ => trivial
  refine hprelude.bind fun _ t ht => ?_
  have hsetUp : After (setUp P) t (fun _ u => u.SetUp) fun _ _ => True :=
    after_setUp (fun hready => ⟨ht, hready⟩) fun _ => ⟨ht, rfl⟩
  refine hsetUp.bind fun first u hu => ?_
  have hR := routine_drift P fun _ => ()
  have keep : ∀ {β : Type} {a : Action α σ n β}, Follows (Drift P fun _ => ()) a →
      After a u (fun _ v => v.SetUp) fun _ _ => True :=
    fun ha => (ha u).mono (fun _ _ _ h => hu.drift h) fun _ _ _ _ => trivial
  exact keep (hR.change_bind
    (fun s => ⟨rfl, rfl, .inr rfl, rfl, rfl, .inl rfl, rfl, rfl, rfl, rfl⟩) (hR.openFrom first))

theorem solveAction_damped (hmethod : P.options.method = .damped) (s : Session α σ n) :
    (∃ halt t, toFirstAttempt P s = .error halt t ∧
      (solveAction P s = .error halt t ∨ solveAction P s = .error halt t.unmarked)) ∨
    ∃ first t, toFirstAttempt P s = .ok first t ∧
      solveAction P s = thenAlways (afterOpening P first) Session.unmarked t := by
  rw [solveAction_eq, solveByMethod_damped hmethod]
  unfold toFirstAttempt
  cases hu : prelude P s with
  | error halt t => exact .inl ⟨halt, t, bind_error hu, .inl (bind_error hu)⟩
  | ok _ u =>
    rw [bind_ok hu, bind_ok hu, solveDamped_eq]
    cases hv : openSolve P u with
    | error halt t => exact .inl ⟨halt, t, rfl, .inr (thenAlways_error (bind_error hv))⟩
    | ok first t =>
      refine .inr ⟨first, t, rfl, ?_⟩
      unfold thenAlways
      rw [bind_ok hv]

/-- The marks that a solve from `s` leaves in `t`, and what it can come to then. -/
inductive LeavesMarks (P : Problem α σ n) (s t : Session α σ n) :
    Except (Halt α) (Report α) → Prop
  /-- It halts before its first attempt. -/
  | unopened {halt : Halt α} : s.opens P = false → t.flags = s.flags → ¬ halt.Decides →
      (s.SetUp → ¬ halt.Refuses) → LeavesMarks P s t (.error halt)
  | halted {halt : Halt α} : s.opens P = true → CutShort (s.cutShort? P) halt t → t.SetUp →
      ¬ halt.Refuses → LeavesMarks P s t (.error halt)
  | ended {report : Report α} : s.opens P = true → s.cutShort? P = none →
      t.flags = marksOf none → t.SetUp → LeavesMarks P s t (.ok report)

theorem solveAction_leavesMarks [LawfulScalar α] (hmethod : P.options.method = .damped)
    (s : Session α σ n) :
    After (solveAction P) s (fun report t => LeavesMarks P s t (.ok report))
      fun halt t => LeavesMarks P s t (.error halt) := by
  have hopen := toFirstAttempt_flags P s
  obtain ⟨halt, t, ht, hsolve⟩ | ⟨first, u, hu, hsolve⟩ := solveAction_damped hmethod s
  · have hopens : s.opens P = false := by
      unfold Session.opens
      rw [ht]
    have hleaves : ∀ v : Session α σ n, v.flags = t.flags → LeavesMarks P s v (.error halt) :=
      fun v hv => .unopened hopens (hv.trans (hopen.error ht))
        ((toFirstAttempt_undecided P s).error ht) fun hs => (toFirstAttempt_setUp hs).error ht
    unfold After
    obtain hsolve | hsolve := hsolve
    · rw [hsolve]
      exact hleaves t rfl
    · rw [hsolve]
      exact hleaves t.unmarked rfl
  · have hopens : s.opens P = true := by
      unfold Session.opens
      rw [hu]
    have hcut : s.cutShort? P = cutWithin? P first u := by
      unfold Session.cutShort?
      rw [hu]
    have hsetUp := ((toFirstAttempt_leaves_setUp P s).ok hu :)
    rw [after_congr hsolve, after_thenAlways]
    have hdrift := (routine_drift P fun _ => ()).attempts (settles_drift P _) (closed_drift P _) first u
    refine (afterOpening_flags P first u).mono (fun report t ht ⟨hflags, hnone⟩ => ?_)
      fun halt t ht hcutShort => ?_
    · have htsetUp := hsetUp.drift (hdrift.ok ht)
      exact .ended hopens (hcut.trans hnone) hflags ⟨htsetUp.started, htsetUp.ready⟩
    · have htsetUp := hsetUp.drift (hdrift.error ht)
      refine .halted hopens ?_ ⟨htsetUp.started, htsetUp.ready⟩
        ((shuns_afterOpening P first u).error ht)
      rw [hcut]
      exact ⟨hcutShort.flags, hcutShort.fatal⟩

theorem Session.opens_of_cutShort {a : MarkedAttempt} (h : s.cutShort? P = some a) :
    s.opens P = true := by
  unfold Session.cutShort? at h
  unfold Session.opens
  cases hrun : toFirstAttempt P s with
  | ok first t => rfl
  | error halt t =>
    rw [hrun] at h
    cases h

/-- A solve that comes to a verdict, or is refused at its start, leaves no mark. -/
theorem LeavesMarks.lowered {result : Except (Halt α) (Report α)} (h : LeavesMarks P s t result)
    (hs : s.flags = marksOf none ∨ s.SetUp)
    (hresult : ∀ halt, result = .error halt → halt.Decides ∨ halt.Refuses) :
    t.flags = marksOf none := by
  cases h with
  | unopened _ hflags hundecided hunrefused =>
    have hrefuses := (hresult _ rfl).resolve_left hundecided
    obtain hlowered | hsetUp := hs
    · exact hflags.trans hlowered
    · exact absurd hrefuses (hunrefused hsetUp)
  | halted _ hcut _ hunrefused =>
    obtain ⟨details, hdecides⟩ := (hresult _ rfl).resolve_right hunrefused
    cases hmark : s.cutShort? P with
    | none => exact hcut.flags.trans (congrArg marksOf hmark)
    | some a =>
      obtain ⟨request, reason, hfatal⟩ := hcut.fatal a hmark
      cases hfatal.symm.trans hdecides
  | ended _ _ hflags _ => exact hflags

/-- A solve that is cut short in a marked attempt comes to a fatal answer and leaves the mark. -/
theorem LeavesMarks.marked {result : Except (Halt α) (Report α)} {a : MarkedAttempt}
    (h : LeavesMarks P s t result) (ha : s.cutShort? P = some a) :
    (∃ halt, result = .error halt ∧ halt.Fatal) ∧ t.flags = marksOf (some a) := by
  cases h with
  | unopened hunopened =>
    exact absurd (hunopened.symm.trans (Session.opens_of_cutShort ha)) Bool.false_ne_true
  | halted _ hcut => exact ⟨⟨_, rfl, hcut.fatal a ha⟩, hcut.flags.trans (congrArg marksOf ha)⟩
  | ended _ hnone => cases hnone.symm.trans ha

/-! ## The mark that a block carries -/

variable {b : Block α σ n} {mark : Option MarkedAttempt}

/-- The mark that a block carries after a solve: if the solve got to its first attempt, that of the
attempt within which it was cut short, and else the one carried before. -/
def Block.markAfterSolve (b : Block α σ n) (mark : Option MarkedAttempt) : Option MarkedAttempt :=
  if b.session.opens b.problem then b.session.cutShort? b.problem else mark

/-- The mark that a block carries after any operations, whatever checkpoints it went back to. -/
inductive Carries : Block α σ n → Option MarkedAttempt → Prop where
  | create {label : String} {model : Model α σ n} {state : σ} {options : Options α}
      {auxiliaryCount : Nat} {variability : Variability} {b : Block α σ n} :
      Block.create label model state options auxiliaryCount variability = .ok b → Carries b none
  | solve {b : Block α σ n} {mark : Option MarkedAttempt} : Carries b mark →
      Carries b.solve.2 (b.markAfterSolve mark)
  | after {b : Block α σ n} {mark : Option MarkedAttempt} {operation : Operation α} :
      operation ≠ .solve → Carries b mark → Carries (b.after operation) mark
  | notifyEvent {b : Block α σ n} {mark : Option MarkedAttempt} : Carries b mark →
      Carries b.notifyEvent mark
  | modifyModel {b : Block α σ n} {mark : Option MarkedAttempt} (change : σ → σ) :
      Carries b mark → Carries (b.modifyModel change) mark
  | restore {b : Block α σ n} {mark : Option MarkedAttempt} {m : Nat}
      (checkpoint : Checkpoint α m) : Carries b mark → Carries (b.restore checkpoint).2 mark
  | teardown {b : Block α σ n} {mark : Option MarkedAttempt} : Carries b mark →
      Carries b.teardown none

theorem Block.solve_leavesMarks [LawfulScalar α] (hmethod : b.problem.options.method = .damped) :
    LeavesMarks b.problem b.session b.solve.2.session b.solve.1 :=
  Block.perform_ends (Q := fun r t => LeavesMarks b.problem b.session t r)
    (solveAction_leavesMarks hmethod b.session)

/-- A block has the marks it carries, and it carries one only if it has been set up. -/
structure Marked (b : Block α σ n) (mark : Option MarkedAttempt) : Prop where
  flags : b.session.flags = marksOf mark
  setUp : mark ≠ none → b.session.SetUp

theorem Marked.solve [LawfulScalar α] (hmethod : b.problem.options.method = .damped)
    (h : Marked b mark) : Marked b.solve.2 (b.markAfterSolve mark) := by
  have hleaves := b.solve_leavesMarks hmethod
  have hdrift := b.drift_after (fun _ => ()) .solve
  unfold Block.markAfterSolve
  generalize b.solve.1 = result at hleaves
  cases hleaves with
  | unopened hopens hflags _ _ =>
    rw [hopens, if_neg Bool.false_ne_true]
    exact ⟨hflags.trans h.flags, fun hmark => (h.setUp hmark).drift hdrift⟩
  | halted hopens hcut hsetUp _ =>
    rw [hopens, if_pos rfl]
    exact ⟨hcut.flags, fun _ => hsetUp⟩
  | ended hopens hnone hflags hsetUp =>
    rw [hopens, if_pos rfl, hnone]
    exact ⟨hflags, fun _ => hsetUp⟩

/-- The marks of a block are those that its history tells of. -/
theorem Carries.marked [LawfulScalar α] (h : Carries b mark)
    (hmethod : b.problem.options.method = .damped) : Marked b mark := by
  induction h with
  | create h =>
    obtain ⟨_, rfl⟩ := Block.create_eq_ok h
    exact ⟨rfl, nofun⟩
  | @solve b mark _ ih =>
    have hproblem : b.solve.2.problem = b.problem := Block.perform_problem b _
    rw [hproblem] at hmethod
    exact (ih hmethod).solve hmethod
  | @after b mark operation hop _ ih =>
    rw [Block.after_problem] at hmethod
    have hcourse := (routine_course b.problem).toForward.after (b := b)
      (Course.of_eq rfl rfl rfl) hop
    have hdrift := b.drift_after (fun _ => ()) operation
    exact ⟨hcourse.keeps.trans (ih hmethod).flags,
      fun hmark => ((ih hmethod).setUp hmark).drift hdrift⟩
  | notifyEvent _ ih =>
    exact ⟨(ih hmethod).flags, fun hmark =>
      ⟨((ih hmethod).setUp hmark).started, ((ih hmethod).setUp hmark).ready⟩⟩
  | modifyModel _ _ ih =>
    exact ⟨(ih hmethod).flags, fun hmark =>
      ⟨((ih hmethod).setUp hmark).started, ((ih hmethod).setUp hmark).ready⟩⟩
  | @restore b mark m checkpoint _ ih =>
    obtain ⟨c, e⟩ | e := b.restore_session checkpoint
    · rw [e] at hmethod ⊢
      exact ⟨(ih hmethod).flags, fun hmark =>
        ⟨((ih hmethod).setUp hmark).started, ((ih hmethod).setUp hmark).ready⟩⟩
    · rw [e] at hmethod ⊢
      exact ih hmethod
  | teardown _ _ => exact ⟨rfl, nofun⟩

/-- The workspace with the marks of all attempts lowered. -/
def Workspace.lowered (w : Workspace α n) : Workspace α n :=
  { w with firstAttempt := false, retrying := false }

/-- Only the mark of a retry counts for the choice of differences. -/
theorem isTwoSided_lowered (o : Options α) {w : Workspace α n} (h : w.retrying = false)
    (x : Vector α n) (j : Fin n) : isTwoSided o w x j = isTwoSided o w.lowered x j := by
  unfold isTwoSided Workspace.lowered
  rw [h]

/-- However a solve by the damped method ends, it leaves no mark of an attempt behind, unless a fatal
answer cuts it short within its first attempt or its rescaled retry, or ends it before its first
attempt and its block carried such a mark. After a success, a failure to converge or a refusal at the
start there never is a mark. The one of a first attempt has no say in whether columns are differenced
to one side or to both. -/
theorem marks_after_solve [LawfulScalar α] (h : Carries b mark)
    (hmethod : b.problem.options.method = .damped) :
    ((mark = none ∨ b.session.opens b.problem = true) →
      b.session.cutShort? b.problem = none → b.solve.2.session.flags = (false, false)) ∧
    ((∀ halt, b.solve.1 = .error halt → halt.Decides ∨ halt.Refuses) →
      b.solve.2.session.flags = (false, false)) ∧
    (∀ a, b.session.cutShort? b.problem = some a →
      (∃ halt, b.solve.1 = .error halt ∧ halt.Fatal) ∧
        b.solve.2.session.flags = marksOf (some a)) ∧
    (b.markAfterSolve mark ≠ some .retry → ∀ (x : Vector α n) (j : Fin n),
      isTwoSided b.problem.options b.solve.2.session.work x j =
        isTwoSided b.problem.options b.solve.2.session.work.lowered x j) := by
  have hmarked := h.marked hmethod
  have hafter := hmarked.solve hmethod
  have hleaves := b.solve_leavesMarks hmethod
  refine ⟨fun hmark hcut => ?_, fun hverdict => ?_, fun a => hleaves.marked, fun hretry x j => ?_⟩
  · have hnone : b.markAfterSolve mark = none := by
      unfold Block.markAfterSolve
      obtain hmark | hopens := hmark
      · rw [hcut, hmark, ite_self]
      · rw [hopens, if_pos rfl, hcut]
    exact hafter.flags.trans (congrArg marksOf hnone)
  · refine hleaves.lowered ?_ hverdict
    cases mark with
    | none => exact .inl hmarked.flags
    | some a => exact .inr (hmarked.setUp nofun)
  · refine isTwoSided_lowered _ ?_ x j
    have hretrying : b.solve.2.session.work.retrying = (marksOf (b.markAfterSolve mark)).2 :=
      congrArg Prod.snd hafter.flags
    rw [hretrying]
    cases hmark : b.markAfterSolve mark with
    | none => rfl
    | some a =>
      cases a with
      | first => rfl
      | retry => exact absurd hmark hretry

end

/-! ## A model that is lost during a solve -/

/-- A block whose residual is `x² - 4`, until its model is lost after a number of requests. Only the
retry is to difference to both sides. -/
def mortalBlock (requests : Nat) : Block Float Nat 1 where
  problem :=
    { label := "loop"
      options := { Options.standard with jacobianSource := .twoSided .all true }
      model :=
        { start := fun values k => (.ok { values with initial := #[2] }, k)
          evaluate := fun x k =>
            (if k = requests then .error (.fatal "lost") else .ok (x.map fun y => y * y - 4), k + 1)
          evaluateAuxiliary := fun _ k => (.ok (), k)
          writeBack := fun _ k => (if k = requests then .error (.fatal "lost") else .ok (), k + 1)
          residualNominals := fun _ => none
          jacobian := none
          directional := none
          pattern := fun _ => none }
      auxiliaryCount := 0
      variability := .continuous }
  session := Session.fresh 1 0

theorem mortalBlock_carries (requests : Nat) : Carries (mortalBlock requests) none :=
  @Carries.create Float Nat _ 1 "loop" (mortalBlock requests).problem.model 0
    (mortalBlock requests).problem.options 0 .continuous (mortalBlock requests) rfl

set_option maxRecDepth 100000 in
/-- The model may be lost at the end of the solve, which leaves no mark, or within the retry, after
which a Jacobian would be differenced to both sides. -/
theorem marks_after_solve_mortal :
    ((∃ halt, (mortalBlock 7).solve.1 = .error halt) ∧
      (mortalBlock 7).solve.2.session.flags = (false, false)) ∧
    (mortalBlock 6).solve.2.session.flags = (false, true) ∧
      isTwoSided (mortalBlock 6).problem.options (mortalBlock 6).solve.2.session.work
        (mortalBlock 6).solve.2.session.x 0 = true := by
  have hrefused : (match (mortalBlock 7).solve.1 with
      | .ok _ => false
      | .error _ => true) = true := by decide +kernel
  have huncut : (mortalBlock 7).session.cutShort? (mortalBlock 7).problem = none := by
    decide +kernel
  have hcut : (mortalBlock 6).session.cutShort? (mortalBlock 6).problem = some .retry := by
    decide +kernel
  have hlowered := (marks_after_solve (mortalBlock_carries 7) rfl).1 (.inl rfl) huncut
  have hleft := ((marks_after_solve (mortalBlock_carries 6) rfl).2.2.1 .retry hcut).2
  refine ⟨⟨?_, hlowered⟩, hleft, by decide +kernel⟩
  split at hrefused
  · cases hrefused
  · next halt h => exact ⟨halt, h⟩

end AlgebraicLoop
