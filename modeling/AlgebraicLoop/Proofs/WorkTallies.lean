import AlgebraicLoop.Proofs.ReportedAttempts
import AlgebraicLoop.Proofs.StartingOver
import AlgebraicLoop.Proofs.WriteBacks
import Mathlib.Algebra.Group.Action.Defs
import Mathlib.Algebra.Order.BigOperators.Group.List
import Mathlib.Algebra.Order.Ring.Nat

/-!
# The tallies of the work

A block counts its residual evaluations and its iterations, and a solve reports the attempts it made
and the iterations of each. The counts are advanced where the work is done, the report is put
together at the end; they agree all the same.

* `Session.Tallied`, `Handled.tallied`: the evaluations counted are those the model was asked for;
* `Attempt.Orderly`, `Makes.orderly`: the iterations that an attempt has on record;
* `ReportTallies`, `solve_report_tallies`: the report of a solve that succeeds;
* `work_tallies`: all tallies of a block, whatever was done with it.
-/

namespace AlgebraicLoop
set_option autoImplicit false

/-- Was the model asked for its residual? -/
def Call.isEvaluate {α : Type} {n : Nat} : Call α n → Bool
  | .evaluate _ _ => true
  | .start _ | .evaluateAuxiliary _ _ | .jacobian _ _ | .directional _ _ _ | .writeBack _ _ => false

section
variable {α σ : Type} {n : Nat} {s t u : Session α σ n}

/-! ## Residual evaluations -/

/-- As many evaluations are counted as the model was asked for. -/
def Session.Tallied (s : Session α σ n) : Prop :=
  s.counters.residualEvaluations = s.calls.toList.countP Call.isEvaluate

namespace Session.Tallied

theorem keep (h : s.Tallied) (hcalls : t.calls = s.calls)
    (hcount : t.counters.residualEvaluations = s.counters.residualEvaluations) : t.Tallied := by
  unfold Session.Tallied
  rw [hcount, hcalls]
  exact h

/-- A request other than for the residual is not counted. -/
theorem request (h : s.Tallied) {c : Call α n} (hcalls : t.calls = s.calls.push c)
    (hc : c.isEvaluate = false)
    (hcount : t.counters.residualEvaluations = s.counters.residualEvaluations) : t.Tallied := by
  unfold Session.Tallied
  rw [hcount, hcalls, Array.toList_push, List.countP_append, List.countP_singleton, hc]
  exact h

theorem evaluate (h : s.Tallied) {c : Call α n} (hcalls : t.calls = s.calls.push c)
    (hc : c.isEvaluate = true)
    (hcount : t.counters.residualEvaluations = s.counters.residualEvaluations + 1) : t.Tallied := by
  unfold Session.Tallied
  rw [hcount, hcalls, Array.toList_push, List.countP_append, List.countP_singleton, hc]
  exact congrArg (· + 1) h

end Session.Tallied

/-- The action counts the evaluations that it asks for, however it ends. -/
abbrev Counts {β : Type} (a : Action α σ n β) : Prop :=
  Follows (fun s t : Session α σ n => s.Tallied → t.Tallied) a

theorem counts_differentiate {β : Type} (request : Answer σ β)
    {record : Except EvalFailure β → Call α n}
    (hrecord : ∀ answer, (record answer).isEvaluate = false) :
    Counts (ask request record >>= settleAnswer .differentiate) :=
  follows_request fun _ hs => hs.request rfl (hrecord _) rfl

theorem counts_updateAuxiliary (P : Problem α σ n) (x : Vector α n) :
    Counts (updateAuxiliary P x) := follows_updateAuxiliary fun _ _ hs => hs.request rfl rfl rfl

variable [Scalar α] {P : Problem α σ n}

theorem counts_evaluate (P : Problem α σ n) (x : Vector α n) : Counts (evaluate P x) :=
  follows_evaluate fun _ _ _ hs => hs.evaluate rfl rfl rfl

theorem pervading_counts (P : Problem α σ n) : Pervading P fun _ a => Counts a where
  value _ _ := id
  seq ha hf := ha.bind (fun _ _ _ hst htu hs => htu (hst hs)) hf
  read hf s := hf s s
  change hg s := fun hs => hs.keep (hg s).calls (hg s).evaluations
  halt _ _ := id
  start _ _ := fun hs => hs.request rfl rfl rfl
  residual := counts_evaluate P
  jacobian _ _ _ _ := counts_differentiate _ fun _ => rfl
  directional _ _ _ _ := counts_differentiate _ fun _ => rfl
  auxiliary := counts_updateAuxiliary P
  move hcalls hcount s := fun hs => hs.keep (hcalls s) (hcount s)

omit [Scalar α] in
theorem Handed.tallied (h : Handed P s t) (hs : s.Tallied) : t.Tallied :=
  hs.request h.calls rfl (congrArg Counters.residualEvaluations h.counters)

theorem SolveEnds.tallied {result : Except (Halt α) (Report α)} (h : SolveEnds P s result t)
    (hs : s.Tallied) : t.Tallied := by
  have hP := pervading_counts P
  have hprelude : ∀ {u}, prelude P s = .ok () u → u.Tallied := fun hu => (hP.prelude s).ok hu hs
  cases h with
  | unstarted hu => exact (hP.prelude s).error hu hs
  | halted hu hv => exact ((hP.endeavour _).error hv (hprelude hu)).keep rfl rfl
  | closed hu hv hw =>
    have hclose := ((closeSolve_hands P _ _).ok hw).1
    exact (hclose.tallied ((hP.endeavour _).ok hv (hprelude hu))).keep rfl rfl
  | failed hu hv hw =>
    have hclose := ((closeSolve_hands P _ _).error hw).1
    exact (hclose.tallied ((hP.endeavour _).ok hv (hprelude hu))).keep rfl rfl

theorem Block.after_tallied {b : Block α σ n} (hb : b.session.Tallied) (operation : Operation α) :
    (b.after operation).session.Tallied := by
  have hP := (pervading_counts b.problem).toSurrounding
  have performs : ∀ {β : Type} {action : Problem α σ n → Action α σ n β},
      Counts (action b.problem) → (b.perform action).2.session.Tallied := fun h =>
    Block.perform_after ((h b.session).mono (fun _ _ _ h => h hb) fun _ _ _ h => h hb)
  cases operation with
  | solve => exact b.solve_ends.tallied hb
  | setPoint x => exact performs (hP.setPointAction x)
  | evaluateJacobian => exact performs hP.jacobianAction
  | factorizeJacobian => exact performs hP.factorizeAction
  | completedOuterStep => exact hb.keep rfl rfl

/-- A block counts the evaluations that its model was asked for, whatever was done with it. -/
theorem Handled.tallied {b : Block α σ n} (hb : Handled b) : b.session.Tallied := by
  induction hb with
  | create h =>
    obtain ⟨_, rfl⟩ := Block.create_eq_ok h
    rfl
  | after operation _ ih => exact Block.after_tallied ih operation
  | notifyEvent _ ih => exact ih.keep rfl rfl
  | modifyModel _ _ ih => exact ih.keep rfl rfl
  | teardown _ ih => exact ih.keep rfl rfl
  | @restore b m checkpoint _ ih =>
    obtain ⟨_, h⟩ | h := b.restore_session checkpoint
    · rw [h]
      exact ih.keep rfl rfl
    · rw [h]
      exact ih

/-! ## Reported iterations -/

/-- The iterations of an attempt are on record, in the order of their numbers. -/
structure Attempt.Orderly (attempt : Attempt α) : Prop where
  size : attempt.record.iterations = attempt.record.trace.size
  increasing : attempt.record.trace.toList.Pairwise fun it later => it.iteration < later.iteration

theorem Makes.orderly {attempt : Attempt α} (h : Makes P s attempt) : attempt.Orderly := by
  obtain ⟨_, _, _, _, htrial, hrun⟩ := h
  obtain ⟨_, htally, _⟩ := htrial.numbered hrun
  exact ⟨htally.numbered.size, htally.numbered.increasing⟩

theorem Makes.within {attempt : Attempt α} (h : Makes P s attempt)
    (hmethod : P.options.method ≠ .direct) :
    attempt.record.iterations ≤ P.options.maxIterations := by
  obtain ⟨_, _, _, _, htrial, hrun⟩ := h
  obtain ⟨_, htally, hbound⟩ := htrial.numbered hrun
  exact htally.numbered.most.trans (hbound hmethod)

/-- The report sums up one to four attempts of the solve that begins with `s`, once the start values
are there. -/
structure ReportTallies (P : Problem α σ n) (s : Session α σ n) (report : Report α)
    (attempts : List (Attempt α)) : Prop where
  made : ∃ t, prelude P s = .ok () t ∧ ∀ attempt ∈ attempts, Makes P t attempt
  orderly : ∀ attempt ∈ attempts, attempt.Orderly
  count : report.attempts = attempts.length
  some : 1 ≤ report.attempts
  few : report.attempts ≤ 4
  trace : report.trace.toList = attempts.flatMap fun attempt => attempt.record.trace.toList
  iterations : report.iterations = report.trace.size
  within : P.options.method ≠ .direct →
    report.iterations ≤ report.attempts * P.options.maxIterations

theorem Accounts.iterations_le {report : Report α} {attempts : List (Attempt α)}
    (h : Accounts P s report attempts u) (hmethod : P.options.method ≠ .direct) :
    report.iterations ≤ report.attempts * P.options.maxIterations := by
  have hsum := (attempts.map fun attempt => attempt.record.trace.toList.length).sum_le_card_nsmul
    P.options.maxIterations fun k hk => by
      obtain ⟨attempt, hattempt, rfl⟩ := List.mem_map.1 hk
      have hmade := h.made attempt hattempt
      rw [Array.length_toList, ← hmade.orderly.size]
      exact hmade.within hmethod
  rw [List.length_map, smul_eq_mul, ← List.length_flatMap, ← h.trace, Array.length_toList,
    ← h.iterations, ← h.count] at hsum
  exact hsum

theorem solve_report_tallies {b b' : Block α σ n} {report : Report α}
    (h : b.solve = (.ok report, b')) :
    (∃ attempts, ReportTallies b.problem b.session report attempts) ∧
      b'.session.counters.iterations = b.session.counters.iterations + report.iterations := by
  have hends := b.solve_ends
  rw [h] at hends
  dsimp only at hends
  generalize b'.session = final at hends ⊢
  cases hends with
  | @closed standing _ u v w hu hv hw =>
    obtain ⟨hhanded, _, hcount, hiterations, htrace⟩ :=
      (closeSolve_hands b.problem standing v).ok hw
    obtain ⟨attempts, hsome, hfew, hattempts⟩ := endeavour_accounts hv
    have hstill : SameMoves b.session u := ((surrounding_still b.problem).prelude b.session).ok hu
    refine ⟨⟨attempts, ⟨u, hu, hattempts.made⟩, ?_, ?_, ?_, ?_, ?_, ?_, ?_⟩, ?_⟩
    · exact fun attempt hattempt => (hattempts.made attempt hattempt).orderly
    · rw [hcount, hattempts.count]
    · rw [hcount, hattempts.count]
      exact hsome
    · rw [hcount, hattempts.count]
      exact hfew
    · rw [htrace, hattempts.trace]
    · rw [hiterations, htrace]
      exact hattempts.iterations
    · intro hmethod
      rw [hiterations, hcount]
      exact hattempts.iterations_le hmethod
    · change w.counters.iterations = _
      rw [hhanded.counters, hattempts.moves, hstill, hiterations]

theorem solve_unconverged_tallies {b b' : Block α σ n} {details : Unconverged α}
    (h : b.solve = (.error (.fault (.unconverged details)), b')) :
    b'.session.counters.iterations = b.session.counters.iterations + details.iterations := by
  have hends := b.solve_ends
  rw [h] at hends
  dsimp only at hends
  generalize b'.session = final at hends ⊢
  cases hends with
  | unstarted hu =>
    have hclosing := ((pervading_withholds b.problem).prelude _).error hu
    exact absurd (.unconverged details) hclosing.2
  | halted hu hv =>
    have hclosing := ((pervading_withholds b.problem).endeavour _).error hv
    exact absurd (.unconverged details) hclosing.2
  | @failed standing _ u v w hu hv hw =>
    obtain ⟨hhanded, hcloses⟩ := (closeSolve_hands b.problem standing v).error hw
    generalize (b.problem.model.writeBack v.x v.model).1 = answer at hcloses
    cases hcloses with
    | unconverged hiterations =>
      obtain ⟨attempts, _, _, hattempts⟩ := endeavour_accounts hv
      have hstill : SameMoves b.session u := ((surrounding_still b.problem).prelude b.session).ok hu
      change w.counters.iterations = _
      rw [hhanded.counters, hattempts.moves, hstill, hiterations]

/-- All tallies of a block agree, whatever was done with it: the evaluations it counts are those
that its model was asked for, a report has one to four attempts and the iterations of each in order,
and these are the iterations that a solve adds to the count of the block, also where it does not
converge. -/
theorem work_tallies {b : Block α σ n} (hb : Handled b) :
    b.session.counters.residualEvaluations = b.session.calls.toList.countP Call.isEvaluate ∧
    (∀ report b', b.solve = (.ok report, b') →
      (∃ attempts, ReportTallies b.problem b.session report attempts) ∧
        b'.session.counters.iterations = b.session.counters.iterations + report.iterations) ∧
    ∀ details b', b.solve = (.error (.fault (.unconverged details)), b') →
      b'.session.counters.iterations = b.session.counters.iterations + details.iterations :=
  ⟨hb.tallied, fun _ _ h => solve_report_tallies h, fun _ _ h => solve_unconverged_tallies h⟩

end

set_option maxRecDepth 100000 in
/-- A solve in two attempts with one iteration in all, which leaves eight evaluations on count, and
a solve without a solution, which gives up after three iterations. -/
theorem work_tallies_solves :
    (∃ report b', twoBlock.solve = (.ok report, b') ∧ report.attempts = 2 ∧ report.iterations = 1 ∧
      (∃ attempts, ReportTallies twoBlock.problem twoBlock.session report attempts) ∧
      b'.session.counters.iterations = 0 + report.iterations) ∧
    ((twoBlock.after .solve).session.counters.residualEvaluations = 8 ∧
      (twoBlock.after .solve).session.counters.residualEvaluations =
        (twoBlock.after .solve).session.calls.toList.countP Call.isEvaluate) ∧
    ∃ details b', floatingBlock.solve = (.error (.fault (.unconverged details)), b') ∧
      details.iterations = 3 ∧ b'.session.counters.iterations = 0 + details.iterations := by
  have htwo : Handled twoBlock :=
    @Handled.create Float Unit _ 1 "loop" twoBlock.problem.model () Options.standard 0 .continuous
      twoBlock rfl
  have hfloating : Handled floatingBlock :=
    @Handled.create Float Unit _ 1 "loop" floatingBlock.problem.model ()
      { Options.standard with maxIterations := 1 } 0 .continuous floatingBlock rfl
  have hsolved : twoBlock.solve.1.toOption.any
      (fun report => decide (report.attempts = 2 ∧ report.iterations = 1)) = true := by decide +kernel
  have hfailed : (unconverged? floatingBlock.solve.1).any
      (fun details => decide (details.iterations = 3)) = true := by decide +kernel
  refine ⟨?_, ⟨by decide +kernel, (work_tallies (htwo.after .solve)).1⟩, ?_⟩
  · obtain ⟨report, hreport, htest⟩ := exists_of_toOption_any hsolved
    obtain ⟨hattempts, hiterations⟩ := of_decide_eq_true htest
    have hsolve := eq_mk_of_fst hreport
    exact ⟨report, _, hsolve, hattempts, hiterations, (work_tallies htwo).2.1 report _ hsolve⟩
  · obtain ⟨details, hdetails, htest⟩ := exists_of_unconverged? hfailed
    have hsolve := eq_mk_of_fst hdetails
    exact ⟨details, _, hsolve, of_decide_eq_true htest,
      (work_tallies hfloating).2.2 details _ hsolve⟩

end AlgebraicLoop
