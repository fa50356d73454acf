import AlgebraicLoop.Proofs.Rewind

/-!
# Up to the close of a solve

A solve is an endeavour that comes to a verdict, and a close that hands the point over to the model.
What holds of reading a session, of the requests of an endeavour and of changes that make none holds
of the whole of it; `Surrounding` and `Pervading` say so once for every property of actions that is
kept by sequences.

* `endeavour`, `solveByMethod_eq`: a solve without its close;
* `Handed`, `closeSolve_hands`: what a close leaves, and what it comes to;
* `Halt.Closing`, `SolveEnds`: the ways to halt that belong to the close, and all ends of a solve;
* `Surrounding.prelude`, `Surrounding.openSolve`, `Pervading.endeavour`: all before the close;
* `Surrounding.setPointAction`, `Surrounding.factorizeAction`: the operations other than a solve.
-/

namespace AlgebraicLoop
set_option autoImplicit false

section
variable {α σ : Type} [Scalar α] {n : Nat} {P : Problem α σ n}

/-! ## The close -/

/-- A solve by a method of a single attempt, up to its close. -/
def endeavourOnce (P : Problem α σ n)
    (run : Problem α σ n → Tolerances α → Action α σ n (Attempt α)) :
    Action α σ n (Standing α) := do
  discard (setUp P)
  let tol := P.options.plainTolerances n
  modify fun s => { s with phase := .iterating }
  let attempt ← run P tol
  pure ⟨attempt, Report.empty.add attempt, tol.step⟩

/-- A solve by the damped method, up to its close. -/
def endeavourDamped (P : Problem α σ n) : Action α σ n (Standing α) := do
  let first ← openSolve P
  let standing ← firstAttempt P
  let standing ← tryDescent P standing
  let standing ← tryRescaled P first standing
  tryNominal P standing

/-- A solve by the method that the options name, up to its close. -/
def endeavour (P : Problem α σ n) : Action α σ n (Standing α) :=
  match P.options.method with
  | .damped => endeavourDamped P
  | .undamped => endeavourOnce P runUndamped
  | .direct => endeavourOnce P runDirect

theorem endeavourOnce_close (P : Problem α σ n)
    (run : Problem α σ n → Tolerances α → Action α σ n (Attempt α)) :
    solveOnce P run = endeavourOnce P run >>= closeSolve P := by
  unfold solveOnce endeavourOnce
  simp only [bind_assoc, pure_bind]

theorem solveByMethod_eq (P : Problem α σ n) :
    solveByMethod P = endeavour P >>= closeSolve P := by
  unfold solveByMethod endeavour
  cases P.options.method with
  | damped =>
    unfold solveDamped endeavourDamped
    simp only [bind_assoc]
  | undamped => exact endeavourOnce_close P runUndamped
  | direct => exact endeavourOnce_close P runDirect

/-- Why the model did not do what it was asked. -/
def EvalFailure.reason : EvalFailure → String
  | .recoverable reason | .fatal reason => reason

/-- The second session is left after the point of the first one was handed over to the model. -/
structure Handed (P : Problem α σ n) (s t : Session α σ n) : Prop where
  x : t.x = s.x
  counters : t.counters = s.counters
  model : t.model = (P.model.writeBack s.x s.model).2
  calls : t.calls = s.calls.push (.writeBack s.x (P.model.writeBack s.x s.model).1)

omit [Scalar α] in
theorem Handed.of_answer {s t : Session α σ n} {answer : Except EvalFailure Unit}
    (hanswer : (P.model.writeBack s.x s.model).1 = answer) (hx : t.x = s.x)
    (hcounters : t.counters = s.counters) (hmodel : t.model = (P.model.writeBack s.x s.model).2)
    (hcalls : t.calls = s.calls.push (.writeBack s.x answer)) : Handed P s t :=
  ⟨hx, hcounters, hmodel, by rw [hanswer, hcalls]⟩

/-- The ways to halt that belong to the close of a solve: the model refused the point, or took it
over though the solve did not converge. -/
inductive Halt.Closing : Halt α → Prop
  | refused (reason : String) : Closing (.fault (.modelFatal .writeBack reason))
  | unconverged (details : Unconverged α) : Closing (.fault (.unconverged details))

/-- How the close of a solve with a given report halts, given the model's answer. -/
inductive Closes (report : Report α) : Except EvalFailure Unit → Halt α → Prop
  | refused (failure : EvalFailure) :
      Closes report (.error failure) (.fault (.modelFatal .writeBack failure.reason))
  | unconverged {details : Unconverged α} : details.iterations = report.iterations →
      Closes report (.ok ()) (.fault (.unconverged details))

omit [Scalar α] in
theorem Closes.closing {report : Report α} {answer : Except EvalFailure Unit} {halt : Halt α}
    (h : Closes report answer halt) : halt.Closing := by
  cases h with
  | refused failure => exact .refused failure.reason
  | unconverged _ => exact .unconverged _

omit [Scalar α] in
/-- A close hands the point over and does nothing else to the session that would count: with a
success it comes to the report, else it halts with the refusal or the verdict. -/
theorem closeSolve_hands (P : Problem α σ n) (standing : Standing α) (s : Session α σ n) :
    After (closeSolve P standing) s
      (fun report t => Handed P s t ∧ (P.model.writeBack s.x s.model).1 = .ok () ∧
        report.attempts = standing.report.attempts ∧
        report.iterations = standing.report.iterations ∧ report.trace = standing.report.trace)
      fun halt t => Handed P s t ∧
        Closes standing.report (P.model.writeBack s.x s.model).1 halt := by
  unfold closeSolve writeBack
  rw [after_bind, after_congr (get_bind_apply _ _), after_congr (ask_bind_apply _ _ _ _)]
  cases hanswer : (P.model.writeBack s.x s.model).1 with
  | error failure =>
    cases failure with
    | recoverable reason =>
      exact ⟨.of_answer hanswer rfl rfl rfl rfl, .refused (.recoverable reason)⟩
    | fatal reason => exact ⟨.of_answer hanswer rfl rfl rfl rfl, .refused (.fatal reason)⟩
  | ok _ =>
    cases standing.attempt.failure with
    | none => exact ⟨.of_answer hanswer rfl rfl rfl rfl, rfl, rfl, rfl, rfl⟩
    | some reason => exact ⟨.of_answer hanswer rfl rfl rfl rfl, .unconverged rfl⟩

omit [Scalar α] in
/-- A close asks nothing of the model but to take over the point. -/
theorem closeSolve_writeBack_only {M : Model α σ n} (h : M.writeBack = P.model.writeBack)
    (standing : Standing α) :
    closeSolve { P with model := M } standing = closeSolve P standing := by
  unfold closeSolve writeBack failSolve
  rw [h]

/-- The ways in which a solve from `s` comes to its result: it halts before its method or in the
endeavour, or the close of the endeavour gives the result. -/
inductive SolveEnds (P : Problem α σ n) (s : Session α σ n) :
    Except (Halt α) (Report α) → Session α σ n → Prop
  | unstarted {halt : Halt α} {t : Session α σ n} :
      prelude P s = .error halt t → SolveEnds P s (.error halt) t
  | halted {halt : Halt α} {u v : Session α σ n} :
      prelude P s = .ok () u → endeavour P u = .error halt v →
      SolveEnds P s (.error halt) v.unmarked
  | closed {standing : Standing α} {report : Report α} {u v w : Session α σ n} :
      prelude P s = .ok () u → endeavour P u = .ok standing v →
      closeSolve P standing v = .ok report w → SolveEnds P s (.ok report) w.unmarked
  | failed {standing : Standing α} {halt : Halt α} {u v w : Session α σ n} :
      prelude P s = .ok () u → endeavour P u = .ok standing v →
      closeSolve P standing v = .error halt w → SolveEnds P s (.error halt) w.unmarked

theorem solveAction_ends (P : Problem α σ n) (s : Session α σ n) :
    After (solveAction P) s (fun report t => SolveEnds P s (.ok report) t)
      fun halt t => SolveEnds P s (.error halt) t := by
  rw [solveAction_eq, after_bind]
  refine .intro (fun _ u hu => ?_) fun _ _ hu => .unstarted hu
  rw [after_thenAlways, solveByMethod_eq, after_bind]
  refine .intro (fun standing v hv => ?_) fun _ _ hv => .halted hu hv
  exact .intro (fun _ _ hw => .closed hu hv hw) fun _ _ hw => .failed hu hv hw

theorem Block.solve_ends (b : Block α σ n) :
    SolveEnds b.problem b.session b.solve.1 b.solve.2.session :=
  Block.perform_ends (Q := SolveEnds b.problem b.session) (solveAction_ends b.problem b.session)

/-! ## Properties of whole endeavours -/

/-- The second session has the same requests on record as the first one, and the same counts of
evaluations and of iterations. -/
structure Even (s t : Session α σ n) : Prop where
  calls : t.calls = s.calls
  evaluations : t.counters.residualEvaluations = s.counters.residualEvaluations
  iterations : t.counters.iterations = s.counters.iterations

/-- A property of actions that holds of whatever operations do outside the moves of their attempts
and the close of a solve. -/
structure Surrounding (P : Problem α σ n) (C : (β : Type) → Action α σ n β → Prop) : Prop where
  value : ∀ {β : Type} (v : β), C β (pure v)
  seq : ∀ {β β' : Type} {a : Action α σ n β} {f : β → Action α σ n β'},
    C β a → (∀ v, C β' (f v)) → C β' (a >>= f)
  read : ∀ {β : Type} {f : Session α σ n → Action α σ n β}, (∀ s, C β (f s)) → C β (get >>= f)
  change : ∀ {g : Session α σ n → Session α σ n}, (∀ s, Even s (g s)) → C Unit (modify g)
  halt : ∀ {β : Type} {halt : Halt α}, ¬ halt.Closing → C β (throw halt)
  start : ∀ values, C _ (ask (P.model.start values) .start)
  residual : ∀ x, C _ (evaluate P x)
  jacobian : ∀ jacobian, P.model.jacobian = some jacobian → ∀ x A,
    C _ (ask (fun model => (jacobian x model).answer A) (.jacobian x) >>=
      settleAnswer .differentiate)
  directional : ∀ derivative, P.model.directional = some derivative → ∀ x direction,
    C _ (ask (derivative x direction) (.directional x direction) >>= settleAnswer .differentiate)
  auxiliary : ∀ x, C _ (updateAuxiliary P x)

/-- A property of actions that holds of whatever operations do up to the close of a solve. -/
structure Pervading (P : Problem α σ n) (C : (β : Type) → Action α σ n β → Prop) : Prop
    extends Surrounding P C where
  move : ∀ {g : Session α σ n → Session α σ n}, (∀ s, (g s).calls = s.calls) →
    (∀ s, (g s).counters.residualEvaluations = s.counters.residualEvaluations) → C Unit (modify g)

variable {C : (β : Type) → Action α σ n β → Prop}

namespace Surrounding

theorem notice (hC : Surrounding P C) (notice : Notice α) : C _ (notify notice) :=
  hC.change fun _ => ⟨rfl, rfl, rfl⟩

theorem fault (hC : Surrounding P C) {β : Type} {fault : Fault α}
    (h : ¬ (Halt.fault fault).Closing) : C β (fail fault) := hC.halt h

/-- Parts of an attempt that keep the point make no move. -/
theorem spot (hC : Surrounding P C) : Closed P true (Session.spot P) C where
  value := hC.value
  seq := hC.seq
  read _ := hC.read
  residualNominals _ := hC.read
  update hg := hC.change fun s =>
    ⟨congrArg Ledger.calls (hg.silent s), congrArg Ledger.residualEvaluations (hg.silent s),
      congrArg Spot.iterations (hg.keeps s)⟩
  notice := hC.notice
  residual := hC.residual
  written _ _ _ _ hstore := hC.read fun _ => hstore _
  jacobian := hC.jacobian
  directional := hC.directional
  auxiliary := hC.auxiliary
  limit _ _ := hC.read fun _ => hC.seq (hC.change fun _ => ⟨rfl, rfl, rfl⟩) fun _ => hC.value _

theorem projectPoint (hC : Surrounding P C) : C _ (projectPoint P) := by
  unfold AlgebraicLoop.projectPoint
  split
  · exact hC.change fun _ => ⟨rfl, rfl, rfl⟩
  · exact hC.value _

theorem checkLength (hC : Surrounding P C) (v : Array α) :
    C _ (checkLength v : Action α σ n (Vector α n)) := by
  unfold AlgebraicLoop.checkLength
  split
  · exact hC.value _
  · exact hC.fault nofun

theorem checkBounds (hC : Surrounding P C) (lower upper : Vector α n) (is : List (Fin n)) :
    C _ (is.forM (checkBounds lower upper)) := by
  induction is with
  | nil => exact hC.value ()
  | cons i is ih =>
    refine hC.seq ?_ fun _ => ih
    unfold AlgebraicLoop.checkBounds
    split
    · exact hC.fault nofun
    · split
      · exact hC.notice _
      · exact hC.value _

theorem prepareUnknowns (hC : Surrounding P C) : C _ (prepareUnknowns P) := by
  refine hC.read fun s => ?_
  split
  · refine hC.seq (hC.start _) fun answer => ?_
    cases answer with
    | error failure =>
      cases failure with
      | fatal reason => exact hC.fault nofun
      | recoverable reason => exact hC.fault nofun
    | ok values =>
      refine hC.seq (hC.checkLength _) fun nominal => ?_
      refine hC.seq (hC.checkLength _) fun lower => ?_
      refine hC.seq (hC.checkLength _) fun upper => ?_
      refine hC.seq (hC.checkLength _) fun initial => ?_
      refine hC.seq (hC.checkBounds _ _ _) fun _ => ?_
      exact hC.seq (hC.change fun _ => ⟨rfl, rfl, rfl⟩) fun _ => hC.projectPoint
  · exact hC.value _

theorem prelude (hC : Surrounding P C) : C _ (prelude P) := by
  refine hC.seq (hC.change fun _ => ⟨rfl, rfl, rfl⟩) fun _ => ?_
  refine hC.seq hC.prepareUnknowns fun _ => ?_
  refine hC.seq hC.projectPoint fun _ => hC.read fun s => ?_
  split
  · exact hC.auxiliary _
  · exact hC.value _

theorem setUp (hC : Surrounding P C) : C _ (setUp P) := by
  refine hC.read fun s => ?_
  split
  · exact hC.value _
  · exact hC.seq (hC.change fun _ => ⟨rfl, rfl, rfl⟩) fun _ => hC.value _

theorem restartFromNominal (hC : Surrounding P C) : C _ (restartFromNominal P) := by
  refine hC.read fun s => ?_
  split
  · exact hC.change fun _ => ⟨rfl, rfl, rfl⟩
  · exact hC.halt nofun

theorem checkStartingPoint (hC : Surrounding P C) : C _ (checkStartingPoint P) := by
  refine hC.read fun s => hC.seq (hC.residual s.x) fun answer => ?_
  cases answer with
  | ok _ => exact hC.value _
  | error mishap =>
    dsimp only
    split
    · refine hC.seq hC.restartFromNominal fun _ => hC.seq (hC.notice _) fun _ => ?_
      refine hC.read fun t => hC.seq (hC.residual t.x) fun answer => ?_
      cases answer with
      | ok _ => exact hC.value _
      | error mishap => exact hC.fault nofun
    · exact hC.fault nofun

theorem startFromAccepted (hC : Surrounding P C) : C _ (startFromAccepted P) := by
  refine hC.read fun s => ?_
  split
  · split
    · exact hC.change fun _ => ⟨rfl, rfl, rfl⟩
    · exact hC.value _
  · exact hC.value _

theorem settlePoint (hC : Surrounding P C) (first : Bool) : C _ (settlePoint P first) := by
  refine hC.seq (hC.change fun _ => ⟨rfl, rfl, rfl⟩) fun _ => hC.read fun s => ?_
  split
  · exact hC.seq hC.spot.updateResidualScales fun _ => hC.value _
  · exact hC.value _

theorem openSolve (hC : Surrounding P C) : C _ (openSolve P) := by
  refine hC.seq hC.setUp fun first => ?_
  refine hC.seq (hC.change fun _ => ⟨rfl, rfl, rfl⟩) fun _ => ?_
  dsimp only
  split
  · exact hC.seq hC.checkStartingPoint fun _ => hC.settlePoint first
  · exact hC.seq hC.startFromAccepted fun _ => hC.settlePoint first

theorem refineAttempt (hC : Surrounding P C) (attempt : Attempt α) :
    C _ (refineAttempt P attempt) := by
  unfold AlgebraicLoop.refineAttempt
  split
  · split
    · next h =>
      refine hC.read fun s => ?_
      split
      · dsimp only
        split
        · exact hC.seq (hC.notice _) fun _ => hC.value _
        · exact hC.value _
      · refine hC.seq (hC.spot.findRoot h _ _ _) fun answer => ?_
        cases answer with
        | error mishap => exact hC.value _
        | ok found =>
          dsimp only
          split
          · refine hC.seq (hC.seq (hC.change fun _ => ⟨rfl, rfl, rfl⟩) fun _ => hC.notice _)
              fun _ => ?_
            exact hC.read fun _ => hC.value _
          · exact hC.value _
    · exact hC.value _
  · exact hC.value _

/-! ## Operations other than a solve -/

theorem setPointAction (hC : Surrounding P C) (x : Array α) : C _ (setPointAction P x) := by
  refine hC.seq (hC.checkLength x) fun x => hC.seq hC.prepareUnknowns fun _ => ?_
  refine hC.seq (hC.change fun _ => ⟨rfl, rfl, rfl⟩) fun _ => ?_
  exact hC.seq hC.projectPoint fun _ => hC.change fun _ => ⟨rfl, rfl, rfl⟩

theorem freshJacobian (hC : Surrounding P C) : C _ (freshJacobian P) := by
  rw [freshJacobian_eq]
  refine hC.seq hC.prepareUnknowns fun _ => ?_
  exact hC.spot.startedJacobian hC.setUp (hC.change fun _ => ⟨rfl, rfl, rfl⟩)
    hC.spot.footing.evaluateJacobian fun _ => hC.fault nofun

theorem jacobianAction (hC : Surrounding P C) : C _ (jacobianAction P) :=
  hC.seq hC.freshJacobian fun _ => hC.read fun _ => hC.value _

theorem factorizeAction (hC : Surrounding P C) : C _ (factorizeAction P) := by
  refine hC.seq hC.freshJacobian fun _ => hC.seq hC.spot.footing.factorize fun usable => ?_
  split
  · exact hC.read fun _ => hC.value _
  · exact hC.fault nofun

end Surrounding

namespace Pervading

theorem setting (hC : Pervading P C) : Closed P true (Session.setting P) C where
  value := hC.value
  seq := hC.seq
  read _ := hC.read
  residualNominals _ := hC.read
  update hg := hC.move (fun s => congrArg Ledger.calls (hg.silent s)) fun s =>
    congrArg Ledger.residualEvaluations (hg.silent s)
  notice := hC.notice
  residual := hC.residual
  written _ _ _ _ hstore := hC.read fun _ => hstore _
  jacobian := hC.jacobian
  directional := hC.directional
  auxiliary := hC.auxiliary
  limit := hC.spot.limit

theorem lineSearch (hC : Pervading P C) (x f step : Vector α n) (length stepTolerance : α) :
    C _ (lineSearch P x f step length stepTolerance) :=
  hC.setting.lineSearch (hC.halt nofun) x f step length stepTolerance

theorem endeavourDamped (hC : Pervading P C) : C _ (endeavourDamped P) := by
  refine hC.seq hC.openSolve fun first => ?_
  refine hC.seq (hC.setting.firstAttempt (fun _ => hC.read) hC.lineSearch) fun standing => ?_
  refine hC.seq (hC.setting.stage.tryDescent hC.lineSearch standing) fun standing => ?_
  refine hC.seq (hC.setting.tryRescaled hC.lineSearch first standing) fun standing => ?_
  exact hC.setting.stage.tryNominal hC.lineSearch hC.restartFromNominal standing

theorem endeavourOnce (hC : Pervading P C)
    {run : Problem α σ n → Tolerances α → Action α σ n (Attempt α)}
    (hrun : ∀ tol, C _ (run P tol)) : C _ (endeavourOnce P run) := by
  refine hC.seq (hC.seq hC.setUp fun _ => hC.value _) fun _ => ?_
  refine hC.seq (hC.change fun _ => ⟨rfl, rfl, rfl⟩) fun _ => ?_
  exact hC.seq (hrun _) fun _ => hC.value _

/-- Everything between the start of a solve and its close. -/
theorem endeavour (hC : Pervading P C) : C _ (endeavour P) := by
  unfold AlgebraicLoop.endeavour
  split
  · exact hC.endeavourDamped
  · exact hC.endeavourOnce hC.setting.stage.runUndamped
  · exact hC.endeavourOnce hC.setting.stage.runDirect

end Pervading

end

end AlgebraicLoop
