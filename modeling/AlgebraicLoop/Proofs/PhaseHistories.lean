import AlgebraicLoop.Proofs.FinalPoints
import AlgebraicLoop.Proofs.JacobianSteps
import AlgebraicLoop.Proofs.WriteBacks

/-!
# What the phase tells of the solves

A solve enters a phase with each kind of step it takes, and its verdict is the last one. Nothing
else that is asked of a block changes its phase once it has started. So the phase tells how the last
solve ended, if that came to a verdict. A solve that is cut short, by a fatal answer of the model or
for lack of an initial point, gives none: it leaves the block in the midst of its steps, or where it
took none, with what the solves before it left.

* `Phase.Precedes`, `routine_precedes`: phases that follow on each other without a verdict;
* `Leaves`, `Block.solve_leaves`: the phase that a solve leaves, by its result;
* `Block.after_phase`: no other operation changes the phase of a block that has started;
* `Chronicle`, `Tells`: the results of the solves of a block, and what a phase says about them;
* `phase_tells`: the phase of a block by all its solves.
-/

namespace AlgebraicLoop
set_option autoImplicit false

/-! ## Phases without a verdict -/

/-- The second phase may follow on the first one without a verdict. -/
inductive Phase.Precedes : Phase → Phase → Prop
  | same (phase : Phase) : Precedes phase phase
  | running {phase next : Phase} : next.Running → Precedes phase next
  | started : Precedes .untouched .started

theorem Phase.Precedes.of_eq {phase next : Phase} (h : next = phase) : phase.Precedes next :=
  h ▸ .same phase

theorem Phase.Precedes.trans {p q r : Phase} (hpq : p.Precedes q) (hqr : q.Precedes r) :
    p.Precedes r := by
  cases hqr with
  | same => exact hpq
  | running hr => exact .running hr
  | started =>
    cases hpq with
    | same => exact .started
    | running h => exact h.elim

section
variable {α σ : Type} {n : Nat}

/-- The action does not change the phase. -/
def KeepsPhase {β : Type} (a : Action α σ n β) : Prop := Follows (fun s t => t.phase = s.phase) a

theorem KeepsPhase.bind {β γ : Type} {a : Action α σ n β} {f : β → Action α σ n γ}
    (ha : KeepsPhase a) (hf : ∀ v, KeepsPhase (f v)) : KeepsPhase (a >>= f) :=
  Follows.bind (fun _ _ _ hst htu => htu.trans hst) ha hf

theorem keepsPhase_pure {β : Type} (v : β) : KeepsPhase (pure v : Action α σ n β) := fun _ => rfl

theorem keepsPhase_get {β : Type} {f : Session α σ n → Action α σ n β}
    (hf : ∀ s, KeepsPhase (f s)) : KeepsPhase (get >>= f) := fun s => hf s s

theorem keepsPhase_fail {β : Type} (fault : Fault α) :
    KeepsPhase (fail fault : Action α σ n β) := fun _ => rfl

theorem keepsPhase_modify {g : Session α σ n → Session α σ n} (h : ∀ s, (g s).phase = s.phase) :
    KeepsPhase (modify g : Action α σ n Unit) := h

/-- An action that does not change the phase follows every relation that depends on it only. -/
theorem KeepsPhase.follows {β : Type} {a : Action α σ n β} (ha : KeepsPhase a)
    {R : Phase → Phase → Prop} (hR : ∀ phase, R phase phase) :
    Follows (fun s t => R s.phase t.phase) a := fun s =>
  have kept : ∀ t : Session α σ n, t.phase = s.phase → R s.phase t.phase := fun _ h =>
    h ▸ hR s.phase
  (ha s).mono (fun _ t _ => kept t) fun _ t _ => kept t

variable [Scalar α] {P : Problem α σ n} {b : Block α σ n}

/-- A part of a solve that enters no phase leaves the phase. -/
theorem closed_keepsPhase (P : Problem α σ n) :
    Closed P true (fun s : Session α σ n => s.phase) fun _ a => KeepsPhase a :=
  closed_still P true (fun _ _ _ _ _ _ => rfl) fun _ _ _ => rfl

/-- The attempts of a solve give no verdict. -/
theorem closed_precedes (P : Problem α σ n) :
    Closed P true (Session.setting P) fun _ a => Follows (fun s t => s.phase.Precedes t.phase) a :=
  have hC := closed_keepsPhase P
  have precedes : ∀ {β : Type} {a : Action α σ n β}, KeepsPhase a →
      Follows (fun s t => s.phase.Precedes t.phase) a := fun ha => ha.follows .same
  { value := fun _ _ => .same _
    seq := fun ha hf => Follows.bind (fun _ _ _ => .trans) ha hf
    read := fun _ hf s => hf s s
    residualNominals := fun _ hf s => hf s s
    update := fun hg s => (hg.proceeds s).phase.elim .of_eq .running
    notice := fun notice => precedes (hC.notice notice)
    residual := fun x => precedes (hC.residual x)
    written := fun _ _ _ _ hstore s => hstore _ s
    jacobian := fun jacobian hj x A => precedes (hC.jacobian jacobian hj x A)
    directional := fun derivative hd x direction =>
      precedes (hC.directional derivative hd x direction)
    auxiliary := fun x => precedes (hC.auxiliary x)
    limit := fun x step => precedes (hC.limit x step) }

/-- Start values are the only thing but a solve that comes with a phase of its own. -/
theorem prepareUnknowns_phase (P : Problem α σ n) (s : Session α σ n) :
    After (prepareUnknowns P) s
      (fun _ t => s.phase = .untouched ∧ t.phase = .started ∨ t.phase = s.phase)
      fun _ t => t.phase = s.phase :=
  after_prepareUnknowns (fun _ => .inr rfl) (fun _ _ hs _ _ => .inl ⟨hs, rfl⟩) fun _ _ _ _ => rfl

theorem setUp_keepsPhase (P : Problem α σ n) : KeepsPhase (setUp P) := fun _ =>
  after_setUp (fun _ => rfl) fun _ => rfl

theorem routine_precedes (P : Problem α σ n) :
    Routine P fun s t => s.phase.Precedes t.phase where
  trans _ _ _ := .trans
  light _ _ h := .of_eq (Prod.mk.inj h.stage).1
  closed := (closed_precedes P).stage
  prepareUnknowns s := by
    refine (prepareUnknowns_phase P s).mono (fun _ t _ h => ?_) fun _ _ _ h => .of_eq h
    obtain ⟨hs, ht⟩ | h := h
    · rw [hs, ht]
      exact .started
    · exact .of_eq h
  setUp := (setUp_keepsPhase P).follows .same
  writeBack := follows_writeBack fun _ => .same _
  rewind _ _ _ := .same _

/-! ## The end of a solve -/

/-- The endeavour of a solve relates its ends as its parts do. -/
theorem Routine.endeavour {R : Session α σ n → Session α σ n → Prop} (hR : Routine P R)
    (hC : Closed P true (Session.setting P) fun _ a => Follows R a) :
    Follows R (endeavour P) := by
  have once : ∀ {run : Problem α σ n → Tolerances α → Action α σ n (Attempt α)},
      (∀ tol, Follows R (run P tol)) → Follows R (endeavourOnce P run) := by
    intro run hrun
    refine hR.bind (hR.bind hR.setUp fun _ => hR.value _) fun _ => ?_
    refine hR.bind (hC.enter trivial fun _ => rfl) fun _ => ?_
    exact hR.bind (hrun _) fun _ => hR.value _
  unfold AlgebraicLoop.endeavour
  split
  · refine hR.bind hR.openSolve fun first => ?_
    refine hR.bind (hC.firstAttempt (fun _ hf s => hf s s) hR.lineSearch) fun standing => ?_
    refine hR.bind (hC.stage.tryDescent hR.lineSearch standing) fun standing => ?_
    refine hR.bind (hC.tryRescaled hR.lineSearch first standing) fun standing => ?_
    exact hR.tryNominal standing
  · exact once hC.stage.runUndamped
  · exact once hC.stage.runDirect

/-- The phase that a solve leaves which began in a given one and came to a given result. -/
inductive Leaves (phase : Phase) : Except (Halt α) (Report α) → Phase → Prop
  | converged (report : Report α) : Leaves phase (.ok report) .converged
  | failed (details : Unconverged α) :
      Leaves phase (.error (.fault (.unconverged details))) .failed
  | cutShort {halt : Halt α} {next : Phase} : ¬ halt.Decides → phase.Precedes next →
      Leaves phase (.error halt) next

omit [Scalar α] in
theorem Leaves.since {p q next : Phase} {result : Except (Halt α) (Report α)} (hpq : p.Precedes q)
    (h : Leaves q result next) : Leaves p result next := by
  cases h with
  | converged report => exact .converged report
  | failed details => exact .failed details
  | cutShort hhalt hnext => exact .cutShort hhalt (hpq.trans hnext)

omit [Scalar α] in
/-- The verdict of a solve is given at its very end, once the model took the point over. -/
theorem closeSolve_leaves (P : Problem α σ n) (standing : Standing α) (s : Session α σ n) :
    After (closeSolve P standing) s (fun report t => Leaves s.phase (.ok report) t.phase)
      fun halt t => Leaves s.phase (.error halt) t.phase := by
  unfold closeSolve writeBack
  rw [after_bind, after_congr (get_bind_apply _ _), after_congr (ask_bind_apply _ _ _ _)]
  cases (P.model.writeBack s.x s.model).1 with
  | error failure =>
    cases failure with
    | recoverable reason => exact .cutShort nofun (.same _)
    | fatal reason => exact .cutShort nofun (.same _)
  | ok _ =>
    cases standing.attempt.failure with
    | none => exact .converged _
    | some reason => exact .failed _

/-- A solve leaves the phase of its verdict, or none where it is cut short. -/
theorem Block.solve_leaves (b : Block α σ n) :
    Leaves b.session.phase b.solve.1 b.solve.2.session.phase := by
  have hR := routine_precedes b.problem
  have hends := b.solve_ends
  generalize b.solve.1 = result at hends ⊢
  generalize b.solve.2.session = final at hends ⊢
  have withheld := pervading_withholds b.problem
  have undecided : ∀ {halt : Halt α}, ¬ halt.Closing → ¬ halt.Decides := by
    rintro halt hclosing ⟨details, rfl⟩
    exact hclosing (.unconverged details)
  cases hends with
  | unstarted hu =>
    exact .cutShort (undecided ((withheld.prelude _).error hu).2) ((hR.prelude _).error hu)
  | halted hu hv =>
    exact .cutShort (undecided ((withheld.endeavour _).error hv).2)
      (((hR.prelude _).ok hu).trans ((hR.endeavour (closed_precedes _) _).error hv :))
  | closed hu hv hw =>
    exact ((closeSolve_leaves _ _ _).ok hw).since
      (((hR.prelude _).ok hu).trans ((hR.endeavour (closed_precedes _) _).ok hv))
  | failed hu hv hw =>
    exact ((closeSolve_leaves _ _ _).error hw).since
      (((hR.prelude _).ok hu).trans ((hR.endeavour (closed_precedes _) _).ok hv))

/-! ## Operations other than a solve -/

theorem evaluateJacobian_keepsPhase (P : Problem α σ n) (x f : Vector α n) :
    KeepsPhase (evaluateJacobian P x f) := by
  refine (closed_keepsPhase P).evaluateJacobian_of (fun _ => keepsPhase_modify fun _ => rfl)
    (keepsPhase_modify fun _ => rfl) (keepsPhase_modify fun _ => rfl) (fun _ _ _ _ _ _ => ?_) x f
  unfold compareEntry
  split
  · exact KeepsPhase.bind (keepsPhase_modify fun _ => rfl) fun _ => keepsPhase_modify fun _ => rfl
  · exact keepsPhase_pure _

theorem factorize_keepsPhase : KeepsPhase (factorize : Action α σ n Bool) := by
  intro s
  unfold After
  obtain ⟨_, _, _, hrun⟩ | ⟨_, _, hrun⟩ := factorize_cases s
  · rw [hrun]
  · rw [hrun]

/-- The second phase is the first one, or that of a block that has just started. -/
def Phase.Begins (phase next : Phase) : Prop :=
  phase = .untouched ∧ next = .started ∨ next = phase

theorem prepareUnknowns_begins {β : Type} {f : Unit → Action α σ n β} (hf : KeepsPhase (f ())) :
    Follows (fun s t => s.phase.Begins t.phase) (prepareUnknowns P >>= f) := by
  intro s
  have hprepare : After (prepareUnknowns P) s (fun _ t => s.phase.Begins t.phase)
      fun _ t => s.phase.Begins t.phase :=
    (prepareUnknowns_phase P s).mono (fun _ _ _ h => h) fun _ _ _ h => .inr h
  refine hprepare.bind fun _ t ht => ?_
  have kept : ∀ u : Session α σ n, u.phase = t.phase → s.phase.Begins u.phase := fun u hu => by
    rw [hu]
    exact ht
  exact (hf t).mono (fun _ u _ => kept u) fun _ u _ => kept u

theorem startedJacobian_keepsPhase (P : Problem α σ n) : KeepsPhase (startedJacobian P) :=
  (closed_keepsPhase P).startedJacobian (setUp_keepsPhase P) (keepsPhase_modify fun _ => rfl)
    (evaluateJacobian_keepsPhase P) fun _ => keepsPhase_fail _

/-- An operation that is not a solve changes the phase of a block at most by its start. -/
theorem Block.after_phase (b : Block α σ n) {operation : Operation α} (hop : operation ≠ .solve) :
    b.session.phase.Begins (b.after operation).session.phase := by
  have performed : ∀ {β : Type} {action : Problem α σ n → Action α σ n β},
      Follows (fun s t => s.phase.Begins t.phase) (action b.problem) →
        b.session.phase.Begins (b.perform action).2.session.phase := Block.perform_session
  cases operation with
  | solve => exact absurd rfl hop
  | setPoint x =>
    exact performed fun s => after_setPointAction (fun _ => .inr rfl) fun _ =>
      (prepareUnknowns_phase b.problem s).mono (fun _ _ _ h => h) fun _ _ _ h => .inr h
  | evaluateJacobian =>
    refine performed ?_
    unfold jacobianAction
    rw [freshJacobian_eq, bind_assoc]
    refine prepareUnknowns_begins ((startedJacobian_keepsPhase b.problem).bind fun _ => ?_)
    exact keepsPhase_get fun _ => keepsPhase_pure _
  | factorizeJacobian =>
    refine performed ?_
    unfold factorizeAction
    rw [freshJacobian_eq, bind_assoc]
    refine prepareUnknowns_begins ((startedJacobian_keepsPhase b.problem).bind fun _ => ?_)
    refine factorize_keepsPhase.bind fun usable => ?_
    split
    · exact keepsPhase_get fun _ => keepsPhase_pure _
    · exact keepsPhase_fail _
  | completedOuterStep => exact .inr rfl

/-! ## All solves of a block -/

/-- The results of those solves of a block that got past its start, the last one first, whatever
else was done with it. -/
inductive Chronicle : Block α σ n → List (Except (Halt α) (Report α)) → Prop where
  | create {label : String} {model : Model α σ n} {state : σ} {options : Options α}
      {auxiliaryCount : Nat} {variability : Variability} {b : Block α σ n} :
      Block.create label model state options auxiliaryCount variability = .ok b → Chronicle b []
  | unstarted {b : Block α σ n} {results : List (Except (Halt α) (Report α))} :
      Chronicle b results → b.solve.2.session.phase = .untouched → Chronicle b.solve.2 results
  | solve {b : Block α σ n} {results : List (Except (Halt α) (Report α))} :
      Chronicle b results → b.solve.2.session.phase ≠ .untouched →
      Chronicle b.solve.2 (b.solve.1 :: results)
  | after {b : Block α σ n} {results : List (Except (Halt α) (Report α))}
      (operation : Operation α) : operation ≠ .solve → Chronicle b results →
      Chronicle (b.after operation) results
  | notifyEvent {b : Block α σ n} {results : List (Except (Halt α) (Report α))} :
      Chronicle b results → Chronicle b.notifyEvent results
  | modifyModel {b : Block α σ n} {results : List (Except (Halt α) (Report α))} (change : σ → σ) :
      Chronicle b results → Chronicle (b.modifyModel change) results
  | teardown {b : Block α σ n} {results : List (Except (Halt α) (Report α))} :
      Chronicle b results → Chronicle b.teardown results
  | restore {b : Block α σ n} {results : List (Except (Halt α) (Report α))} {m : Nat}
      (checkpoint : Checkpoint α m) : Chronicle b results →
      Chronicle (b.restore checkpoint).2 results

/-- What a phase says about the results of all solves, the last one first: the last verdict, unless
solves were cut short since and one of these has begun to step. -/
inductive Tells : List (Except (Halt α) (Report α)) → Phase → Prop
  | unsolved {phase : Phase} : phase = .untouched ∨ phase = .started → Tells [] phase
  | converged (report : Report α) (earlier : List (Except (Halt α) (Report α))) :
      Tells (.ok report :: earlier) .converged
  | failed (details : Unconverged α) (earlier : List (Except (Halt α) (Report α))) :
      Tells (.error (.fault (.unconverged details)) :: earlier) .failed
  | running {halt : Halt α} {phase : Phase} (earlier : List (Except (Halt α) (Report α))) :
      ¬ halt.Decides → phase.Running → Tells (.error halt :: earlier) phase
  | standing {halt : Halt α} {phase : Phase} {earlier : List (Except (Halt α) (Report α))} :
      ¬ halt.Decides → Tells earlier phase → Tells (.error halt :: earlier) phase

variable {results : List (Except (Halt α) (Report α))} {phase next : Phase}

omit [Scalar α] in
theorem Tells.begin (h : Tells results phase) (hnext : phase.Begins next) : Tells results next := by
  obtain ⟨rfl, rfl⟩ | rfl := hnext
  · generalize hphase : Phase.untouched = phase at h
    induction h with
    | unsolved _ => exact .unsolved (.inr rfl)
    | converged _ _ => cases hphase
    | failed _ _ => cases hphase
    | running _ _ hrunning => exact absurd hphase.symm hrunning.ne
    | standing hhalt _ ih => exact .standing hhalt (ih hphase)
  · exact h

omit [Scalar α] in
theorem Tells.solve (h : Tells results phase) {result : Except (Halt α) (Report α)}
    (hnext : Leaves phase result next) : Tells (result :: results) next := by
  cases hnext with
  | converged report => exact .converged report results
  | failed details => exact .failed details results
  | cutShort hhalt hprecedes =>
    cases hprecedes with
    | same => exact .standing hhalt h
    | running hrunning => exact .running results hhalt hrunning
    | started => exact .standing hhalt (h.begin (.inl ⟨rfl, rfl⟩))

/-- Whatever was done with a block, its phase tells of its solves. -/
theorem Chronicle.tells (h : Chronicle b results) : Tells results b.session.phase := by
  induction h with
  | create h =>
    obtain ⟨_, rfl⟩ := Block.create_eq_ok h
    exact .unsolved (.inl rfl)
  | @unstarted b results _ hphase ih =>
    have hleaves := b.solve_leaves
    rw [hphase] at hleaves ⊢
    generalize b.solve.1 = result at hleaves
    cases hleaves with
    | cutShort _ hprecedes =>
      generalize b.session.phase = phase at hprecedes ih
      cases hprecedes with
      | same => exact ih
      | running hrunning => exact hrunning.elim
  | @solve b results _ _ ih => exact ih.solve b.solve_leaves
  | @after b results operation hop _ ih => exact ih.begin (b.after_phase hop)
  | notifyEvent _ ih => exact ih
  | modifyModel _ _ ih => exact ih
  | teardown _ ih => exact ih
  | @restore b results m checkpoint _ ih =>
    obtain ⟨_, e⟩ | e := b.restore_session checkpoint
    · rw [e]
      exact ih
    · rw [e]
      exact ih

/-- Once a solve got past the start of its block, and until the next one does: if it came to a
verdict, the phase is `converged` exactly when it succeeded and `failed` exactly when it did not. If
it was cut short, the phase is one of a solve that steps, or still tells of the solves before. -/
theorem phase_tells {result : Except (Halt α) (Report α)} (h : Chronicle b (result :: results)) :
    ((∀ halt, result = .error halt → halt.Decides) →
      (b.session.phase = .converged ↔ ∃ report, result = .ok report) ∧
      (b.session.phase = .failed ↔ ∃ halt, result = .error halt)) ∧
    ∀ halt, result = .error halt → ¬ halt.Decides →
      b.session.phase.Running ∨ Tells results b.session.phase := by
  have htells := h.tells
  generalize b.session.phase = phase at htells ⊢
  cases htells with
  | converged report =>
    exact ⟨fun _ => ⟨⟨fun _ => ⟨report, rfl⟩, fun _ => rfl⟩, nofun, nofun⟩, nofun⟩
  | failed details =>
    refine ⟨fun _ => ⟨⟨nofun, nofun⟩, fun _ => ⟨_, rfl⟩, fun _ => rfl⟩, fun halt hresult hcut => ?_⟩
    cases hresult
    exact absurd ⟨details, rfl⟩ hcut
  | running _ hhalt hrunning =>
    exact ⟨fun hverdict => absurd (hverdict _ rfl) hhalt, fun _ _ _ => .inl hrunning⟩
  | standing hhalt hearlier =>
    exact ⟨fun hverdict => absurd (hverdict _ rfl) hhalt, fun _ _ _ => .inr hearlier⟩

end

/-! ## A model that is lost between two solves -/

/-- A block whose residual `x - 2` can be evaluated until its model is lost. -/
def vanishingBlock : Block Float Bool 1 where
  problem :=
    { label := "loop"
      options := Options.standard
      model :=
        { start := fun values lost => (.ok values, lost)
          evaluate := fun x lost =>
            (if lost then .error (.fatal "lost") else .ok (x.map fun x => x - 2), lost)
          evaluateAuxiliary := fun _ lost => (.ok (), lost)
          writeBack := fun _ lost => (.ok (), lost)
          residualNominals := fun _ => none
          jacobian := none
          directional := none
          pattern := fun _ => none }
      auxiliaryCount := 0
      variability := .continuous }
  session := Session.fresh 1 false

set_option maxRecDepth 100000 in
/-- The second solve fails, since the model is lost before it, and the phase still tells of the
first one, which succeeded. -/
theorem phase_tells_vanishing :
    let solved := vanishingBlock.solve.2
    let lost := solved.modifyModel fun _ => true
    Chronicle lost.solve.2 [lost.solve.1, vanishingBlock.solve.1] ∧
      (∃ report, vanishingBlock.solve.1 = .ok report) ∧ solved.session.phase = .converged ∧
      (∃ halt, lost.solve.1 = .error halt ∧ ¬ halt.Decides) ∧
      lost.solve.2.session.phase = .converged ∧
      Tells [vanishingBlock.solve.1] lost.solve.2.session.phase := by
  intro solved lost
  have hcreated : Chronicle vanishingBlock [] :=
    @Chronicle.create Float Bool 1 _ "loop" vanishingBlock.problem.model false Options.standard 0
      .continuous vanishingBlock rfl
  have hsolved : Chronicle solved [vanishingBlock.solve.1] := hcreated.solve (by decide +kernel)
  have hlost : Chronicle lost.solve.2 [lost.solve.1, vanishingBlock.solve.1] :=
    (hsolved.modifyModel _).solve (by decide +kernel)
  have hreport : vanishingBlock.solve.1.toOption.any (fun _ => true) = true := by decide +kernel
  have hhalt : lost.solve.1 = .error (.fault (.modelFatal .evaluate "lost")) :=
    eq_error_of_haltOf? (by decide +kernel)
  have hconverged : lost.solve.2.session.phase = .converged := by decide +kernel
  obtain ⟨report, hok, _⟩ := exists_of_toOption_any hreport
  obtain ⟨halt, herror, hcut⟩ : ∃ halt, lost.solve.1 = .error halt ∧ ¬ halt.Decides := by
    refine ⟨_, hhalt, ?_⟩
    rintro ⟨details, hdetails⟩
    cases hdetails
  have hverdict : ∀ halt, vanishingBlock.solve.1 = .error halt → halt.Decides := by
    intro halt hhalt
    rw [hok] at hhalt
    cases hhalt
  have hphase := ((phase_tells hsolved).1 hverdict).1.2 ⟨report, hok⟩
  have htells := (phase_tells hlost).2 halt herror hcut
  refine ⟨hlost, ⟨report, hok⟩, hphase, ⟨halt, herror, hcut⟩, hconverged, ?_⟩
  exact htells.resolve_left fun h => by rw [hconverged] at h; exact h

end AlgebraicLoop
