import AlgebraicLoop.Block
import AlgebraicLoop.Proofs.StartValues

/-!
# The phases of a solve

A solve by the damped method is taken apart: what comes before its method, the opening, the attempts
and the close. Each phase that comes to an end is described by the session it leaves.

* `prelude`, `solveAction_eq`: what is done before any method;
* `afterOpening`, `openingAttempts`: what follows on the opening of a solve, and a solve up to its
  rescaled attempt;
* `follows_prelude`, `after_setUp`, `follows_checkStartingPoint`, `after_openSolve`: what is said of both
  ends of these parts;
* `Forward`, `Routine`: relations between the ends of all that is done outside the attempts;
* `openSolve_ok`, `firstAttempt_ok`, `tryDescent_ok`, `tryRescaled_ok`, `tryNominal_ok`,
  `closeSolve_ok`: what the phases leave that come to their end.
-/

namespace AlgebraicLoop
set_option autoImplicit false

section
variable {α σ : Type} [Scalar α] {n : Nat}

/-! ## The phases -/

/-- What a solve does between taking its start values and its method. -/
def approach (P : Problem α σ n) : Action α σ n Unit := do
  projectPoint P
  let s ← get
  if s.atEvent ∧ P.auxiliaryCount > 0 then updateAuxiliary P s.x

/-- What a solve does before its method. -/
def prelude (P : Problem α σ n) : Action α σ n Unit := do
  modify fun s => { s with counters.solves := s.counters.solves + 1 }
  prepareUnknowns P
  approach P

/-- The marks of a block after a solve. -/
def Session.unmarked (s : Session α σ n) : Session α σ n :=
  { s with atEvent := false, guessGiven := false }

theorem solveAction_eq (P : Problem α σ n) :
    solveAction P = prelude P >>= fun _ => thenAlways (solveByMethod P) Session.unmarked := by
  unfold solveAction prelude approach
  simp only [bind_assoc]
  congr 1
  funext _
  congr 1
  funext _
  congr 1
  funext _
  congr 1
  funext s
  split
  · rfl
  · rfl

theorem solveByMethod_damped {P : Problem α σ n} (h : P.options.method = .damped) :
    solveByMethod P = solveDamped P := by
  unfold solveByMethod
  rw [h]

theorem solveByMethod_direct {P : Problem α σ n} (h : P.options.method = .direct) :
    solveByMethod P = solveDirect P := by
  unfold solveByMethod
  rw [h]

/-- A solve up to the rescaled attempt. -/
def openingAttempts (P : Problem α σ n) : Action α σ n (Bool × Standing α) := do
  prelude P
  let first ← openSolve P
  let standing ← firstAttempt P
  let standing ← tryDescent P standing
  pure (first, standing)

/-- The last part of an opening, at the point that the attempts start from. -/
def settlePoint (P : Problem α σ n) (first : Bool) : Action α σ n Bool := do
  modifyWork fun w => { w with jacobianAtPoint := false }
  if first || P.options.rescaleEachSolve || (← get).work.flags.forceRescaling then
    updateResidualScales P
  pure first

/-- All that follows the opening of a solve. -/
def afterOpening (P : Problem α σ n) (first : Bool) : Action α σ n (Report α) := do
  let standing ← firstAttempt P
  let standing ← tryDescent P standing
  let standing ← tryRescaled P first standing
  let standing ← tryNominal P standing
  closeSolve P standing

theorem afterOpening_eq (P : Problem α σ n) (first : Bool) :
    afterOpening P first = ((firstAttempt P >>= tryDescent P) >>= tryRescaled P first) >>=
      tryNominal P >>= closeSolve P := by
  unfold afterOpening
  simp only [bind_assoc]

theorem solveDamped_eq (P : Problem α σ n) : solveDamped P = openSolve P >>= afterOpening P := rfl

/-! ## How a solve opens -/

/-- The session with bounds, scales of the unknowns and the pattern derived. -/
def Session.derived (P : Problem α σ n) (s : Session α σ n) : Session α σ n :=
  { s with
    work :=
      { s.work with
        box := Box.ofBounds s.lower s.upper P.options.stepLimitFactor
        variableScale := variableScales P.options.variableScaling s.nominal P.options.tolerance
        pattern := usablePattern? P s.model
        ready := true } }

/-- The session before any point is evaluated in a solve. -/
def Session.emptied (s : Session α σ n) : Session α σ n := { s with bracket := {} }

/-- The session of a block after it went back to a checkpoint of its own size. -/
def Session.rewound (s : Session α σ n) (c : Checkpoint α n) : Session α σ n :=
  { s with x := c.x, work := s.work.rewind c }

/-- The session without the mark that the Jacobian was evaluated at its point. -/
def Session.unpinned (s : Session α σ n) : Session α σ n :=
  { s with work := { s.work with jacobianAtPoint := false } }

/-- The checkpoint that the next solve would go back to. -/
def resumed? (P : Problem α σ n) (s : Session α σ n) : Option (Checkpoint α n) :=
  if P.options.startFromAccepted ∧ s.work.ready ∧ !s.atEvent ∧ !s.guessGiven then s.work.accepted
  else none

section
variable {P : Problem α σ n} {s : Session α σ n}

theorem setUp_ready (P : Problem α σ n) {s : Session α σ n} (hs : s.work.ready = true) :
    setUp P s = .ok false s := by
  unfold setUp
  rw [get_bind_apply, hs]
  rfl

theorem setUp_unready (P : Problem α σ n) {s : Session α σ n} (hs : s.work.ready = false) :
    setUp P s = .ok true (s.derived P) := by
  unfold setUp
  rw [get_bind_apply, hs]
  rfl

/-- Setting up does not fail: a block that is ready stays as it is, and any other becomes ready. -/
theorem after_setUp {Q : Bool → Session α σ n → Prop} {H : Halt α → Session α σ n → Prop}
    (ready : s.work.ready = true → Q false s)
    (unready : s.work.ready = false → Q true (s.derived P)) : After (setUp P) s Q H := by
  unfold After
  cases hs : s.work.ready with
  | true =>
    rw [setUp_ready P hs]
    exact ready hs
  | false =>
    rw [setUp_unready P hs]
    exact unready hs

omit [Scalar α] in
theorem resumed?_eq_some {c : Checkpoint α n} :
    resumed? P s = some c ↔ (P.options.startFromAccepted = true ∧ s.work.ready = true ∧
      s.atEvent = false ∧ s.guessGiven = false) ∧ s.work.accepted = some c := by
  unfold resumed?
  rw [Option.ite_none_right_eq_some]
  simp only [Bool.not_eq_true']

omit [Scalar α] in
theorem resumed?_of_option (h : P.options.startFromAccepted = false) : resumed? P s = none :=
  if_neg fun hback => Bool.false_ne_true (h.symm.trans hback.1)

omit [Scalar α] in
theorem resumed?_of_unready (h : s.work.ready = false) : resumed? P s = none :=
  if_neg fun hback => Bool.false_ne_true (h.symm.trans hback.2.1)

omit [Scalar α] in
theorem resumed?_of_accepted (h : s.work.accepted = none) : resumed? P s = none := by
  unfold resumed?
  rw [h, ite_self]

omit [Scalar α] in
theorem startFromAccepted_stays (h : resumed? P s = none) (hready : s.work.ready = true) :
    startFromAccepted P s = .ok () s := by
  unfold startFromAccepted
  rw [get_bind_apply]
  split
  · next hback =>
    unfold resumed? at h
    rw [if_pos ⟨hback.1, hready, hback.2⟩] at h
    rw [h]
    rfl
  · rfl

omit [Scalar α] in
theorem startFromAccepted_goes {c : Checkpoint α n} (h : resumed? P s = some c) :
    startFromAccepted P s = .ok () (s.rewound c) := by
  unfold resumed? at h
  split at h
  · next hback =>
    unfold startFromAccepted
    rw [get_bind_apply, if_pos ⟨hback.1, hback.2.2⟩, h]
    rfl
  · cases h

theorem follows_approach {R : Session α σ n → Session α σ n → Prop} (same : ∀ s, R s s)
    (trans : ∀ s t u, R s t → R t u → R s u) (moved : ∀ s x, R s { s with x })
    (hauxiliary : ∀ x, Follows R (updateAuxiliary P x)) : Follows R (approach P) := by
  refine Follows.bind trans (fun s => after_projectPoint (moved s _)) fun _ s => ?_
  rw [after_congr (get_bind_apply _ _)]
  split
  · exact hauxiliary s.x s
  · exact same s

/-- Before its method a solve is counted, its start values are taken, its point is moved into the bounds,
and after an event the other equations are evaluated there. -/
theorem follows_prelude {R : Session α σ n → Session α σ n → Prop} (same : ∀ s, R s s)
    (trans : ∀ s t u, R s t → R t u → R s u)
    (counted : ∀ s : Session α σ n, R s { s with counters.solves := s.counters.solves + 1 })
    (hprepare : Follows R (prepareUnknowns P)) (moved : ∀ s x, R s { s with x })
    (hauxiliary : ∀ x, Follows R (updateAuxiliary P x)) : Follows R (prelude P) :=
  Follows.bind trans counted fun _ =>
    hprepare.bind trans fun _ => follows_approach same trans moved hauxiliary

theorem settlePoint_apply (P : Problem α σ n) (first : Bool) (s : Session α σ n) :
    settlePoint P first s =
      (if first || P.options.rescaleEachSolve || s.work.flags.forceRescaling then
        updateResidualScales P >>= fun _ => pure first
      else pure first) s.unpinned := rfl

theorem openSolve_unready (P : Problem α σ n) {s : Session α σ n} (hs : s.work.ready = false) :
    openSolve P s =
      (checkStartingPoint P >>= fun _ => settlePoint P true) (s.derived P).emptied := by
  unfold openSolve
  rw [bind_ok (setUp_unready P hs)]
  rfl

theorem openSolve_ready (P : Problem α σ n) {s : Session α σ n} (hs : s.work.ready = true) :
    openSolve P s = (startFromAccepted P >>= fun _ => settlePoint P false) s.emptied := by
  unfold openSolve
  rw [bind_ok (setUp_ready P hs)]
  rfl

theorem openSolve_stays (hs : s.work.ready = true) (h : resumed? P s = none) :
    openSolve P s = settlePoint P false s.emptied := by
  rw [openSolve_ready P hs]
  exact bind_ok (startFromAccepted_stays (s := s.emptied) h hs)

theorem openSolve_goes {c : Checkpoint α n} (h : resumed? P s = some c) :
    openSolve P s = settlePoint P false (s.emptied.rewound c) := by
  rw [openSolve_ready P (resumed?_eq_some.1 h).1.2.1]
  exact bind_ok (startFromAccepted_goes (s := s.emptied) h)

/-- The point becomes the nominal guess, where there is one. -/
theorem after_restartFromNominal {Q : Unit → Session α σ n → Prop}
    {H : Halt α → Session α σ n → Prop}
    (moved : ∀ x, nominalGuess? s.nominal s.lower s.upper P.options.enforceBounds = some x →
      Q () { s with x })
    (unordered : nominalGuess? s.nominal s.lower s.upper P.options.enforceBounds = none →
      H .limitsOutOfOrder s) : After (restartFromNominal P) s Q H := by
  unfold restartFromNominal
  rw [after_congr (get_bind_apply _ _)]
  cases hguess : nominalGuess? s.nominal s.lower s.upper P.options.enforceBounds with
  | some x => exact moved x hguess
  | none => exact unordered hguess

theorem restartFromNominal_ok {t : Session α σ n} (h : restartFromNominal P s = .ok () t) :
    ∃ x, nominalGuess? s.nominal s.lower s.upper P.options.enforceBounds = some x ∧
      t = { s with x } :=
  (after_restartFromNominal (P := P)
    (Q := fun _ t => ∃ x, nominalGuess? s.nominal s.lower s.upper P.options.enforceBounds = some x ∧
      t = { s with x }) (H := fun _ _ => True) (fun x hx => ⟨x, hx, rfl⟩) fun _ => trivial).ok h

/-- The check of a starting point evaluates the residual there, and where that is undefined, once more
at the nominal guess. -/
theorem follows_checkStartingPoint {R : Session α σ n → Session α σ n → Prop} (same : ∀ s, R s s)
    (trans : ∀ s t u, R s t → R t u → R s u) (hevaluate : ∀ x, Follows R (evaluate P x))
    (moved : ∀ s x, R s { s with x })
    (notice : ∀ s message, R s { s with notices := s.notices.push message }) :
    Follows R (checkStartingPoint P) := by
  intro s
  unfold checkStartingPoint
  rw [after_congr (get_bind_apply _ _)]
  refine (hevaluate s.x).bind trans (fun answer => ?_) s
  cases answer with
  | ok _ => exact same
  | error mishap =>
    dsimp only
    split
    · have hrestart : Follows R (restartFromNominal P) := fun t =>
        after_restartFromNominal (fun x _ => moved t x) fun _ => same t
      refine hrestart.bind trans fun _ => ?_
      refine Follows.bind trans (fun t => notice t _) fun _ t => ?_
      rw [after_congr (get_bind_apply _ _)]
      refine (hevaluate t.x).bind trans (fun answer u => ?_) t
      cases answer with
      | ok _ => exact same u
      | error mishap => exact same u
    · exact same

/-- A solve opens at its starting point, which is checked when the block is set up, or at the
accepted outer step. -/
theorem after_openSolve {Q : Bool → Session α σ n → Prop} {H : Halt α → Session α σ n → Prop}
    (starts : s.work.ready = false →
      After (checkStartingPoint P >>= fun _ => settlePoint P true) (s.derived P).emptied Q H)
    (stays : s.work.ready = true → resumed? P s = none →
      After (settlePoint P false) s.emptied Q H)
    (goes : ∀ c, resumed? P s = some c →
      After (settlePoint P false) (s.emptied.rewound c) Q H) :
    After (openSolve P) s Q H := by
  cases hs : s.work.ready with
  | false => exact (after_congr (openSolve_unready P hs)).2 (starts hs)
  | true =>
    cases h : resumed? P s with
    | none => exact (after_congr (openSolve_stays hs h)).2 (stays hs h)
    | some c => exact (after_congr (openSolve_goes h)).2 (goes c h)

end

/-! ## Relations between the ends of a phase -/

/-- The scales of the unknowns and of the residuals. -/
def Memory.scales (m : Memory α n) : Vector α n × Vector α n := (m.variableScale, m.residualScale)

/-- The second session differs from the first one in what an operation may change outside its
attempts, where it does not go back to an accepted outer step. -/
structure Light (s t : Session α σ n) : Prop where
  calls : t.calls = s.calls
  model : t.model = s.model
  bracket : t.bracket = s.bracket ∨ t.bracket = {}
  given : (t.lower, t.upper, t.nominal) = (s.lower, s.upper, s.nominal)
  stage : (t.phase, t.eventSinceJacobian) = (s.phase, s.eventSinceJacobian)
  atEvent : t.atEvent = s.atEvent ∨ t.atEvent = false
  box : (t.work.box, t.work.pattern, t.work.ready) = (s.work.box, s.work.pattern, s.work.ready)
  accepted : t.work.accepted = s.work.accepted
  flags : (t.work.firstAttempt, t.work.retrying, t.work.jacobianMismatches) =
    (s.work.firstAttempt, s.work.retrying, s.work.jacobianMismatches)
  scales : t.work.scales = s.work.scales

omit [Scalar α] in
theorem Light.refl (s : Session α σ n) : Light s s :=
  ⟨rfl, rfl, .inl rfl, rfl, rfl, .inl rfl, rfl, rfl, rfl, rfl⟩

/-- A relation that holds between the ends of whatever an operation does outside its attempts, where
it does not go back to an accepted outer step. -/
structure Forward (P : Problem α σ n) (R : Session α σ n → Session α σ n → Prop) : Prop where
  trans : ∀ s t u, R s t → R t u → R s u
  light : ∀ s t, Light s t → R s t
  closed : Closed P true (Session.stage P) fun _ a => Follows R a
  prepareUnknowns : Follows R (prepareUnknowns P)
  setUp : Follows R (setUp P)
  writeBack : Follows R (writeBack P)

/-- A relation that holds between the ends of a verdict, which is a change of phase. -/
def Settles (R : Session α σ n → Session α σ n → Prop) : Prop :=
  ∀ (s : Session α σ n) (phase : Phase), phase ≠ .untouched → R s { s with phase }

/-- A relation that holds between the ends of whatever an operation does outside its attempts. -/
structure Routine (P : Problem α σ n) (R : Session α σ n → Session α σ n → Prop) : Prop
    extends Forward P R where
  rewind : ∀ s c, s.work.accepted = some c → R s { s with x := c.x, work := s.work.rewind c }

namespace Forward
variable {P : Problem α σ n} {R : Session α σ n → Session α σ n → Prop} {β γ : Type}

theorem bind (hR : Forward P R) {a : Action α σ n β} {f : β → Action α σ n γ} (ha : Follows R a)
    (hf : ∀ v, Follows R (f v)) : Follows R (a >>= f) := ha.bind hR.trans hf

theorem same (hR : Forward P R) (s : Session α σ n) : R s s := hR.light s s (Light.refl s)

theorem moved (hR : Forward P R) (s : Session α σ n) (x : Vector α n) : R s { s with x } :=
  hR.light s _ ⟨rfl, rfl, .inl rfl, rfl, rfl, .inl rfl, rfl, rfl, rfl, rfl⟩

theorem value (hR : Forward P R) (v : β) : Follows R (pure v : Action α σ n β) := hR.same

theorem fail (hR : Forward P R) (fault : Fault α) : Follows R (fail fault : Action α σ n β) :=
  hR.same

theorem read (_ : Forward P R) {f : Session α σ n → Action α σ n β}
    (hf : ∀ s, Follows R (f s)) : Follows R (get >>= f) := fun s => hf s s

theorem change (hR : Forward P R) {g : Session α σ n → Session α σ n} (h : ∀ s, Light s (g s)) :
    Follows R (modify g : Action α σ n Unit) := fun s => hR.light s _ (h s)

theorem change_bind (hR : Forward P R) {g : Session α σ n → Session α σ n}
    {f : Unit → Action α σ n β} (h : ∀ s, Light s (g s)) (hf : Follows R (f ())) :
    Follows R ((modify g : Action α σ n Unit) >>= f) := hR.bind (hR.change h) fun _ => hf

theorem notify_bind (hR : Forward P R) {notice : Notice α} {f : Unit → Action α σ n β}
    (hf : Follows R (f ())) : Follows R (notify notice >>= f) :=
  hR.bind (hR.closed.notice notice) fun _ => hf

theorem approach (hR : Forward P R) : Follows R (approach P) :=
  follows_approach hR.same hR.trans hR.moved hR.closed.auxiliary

theorem prelude (hR : Forward P R) : Follows R (prelude P) :=
  follows_prelude hR.same hR.trans
    (fun s => hR.light s _ ⟨rfl, rfl, .inl rfl, rfl, rfl, .inl rfl, rfl, rfl, rfl, rfl⟩)
    hR.prepareUnknowns hR.moved hR.closed.auxiliary

theorem restartFromNominal (hR : Forward P R) : Follows R (restartFromNominal P) := fun s =>
  after_restartFromNominal (fun x _ => hR.moved s x) fun _ => hR.same s

theorem checkStartingPoint (hR : Forward P R) : Follows R (checkStartingPoint P) :=
  follows_checkStartingPoint hR.same hR.trans hR.closed.residual hR.moved fun s _ =>
    hR.light s _ ⟨rfl, rfl, .inl rfl, rfl, rfl, .inl rfl, rfl, rfl, rfl, rfl⟩

theorem settlePoint (hR : Forward P R) (first : Bool) : Follows R (settlePoint P first) := by
  refine hR.change_bind (fun s => ⟨rfl, rfl, .inl rfl, rfl, rfl, .inl rfl, rfl, rfl, rfl, rfl⟩) ?_
  refine hR.read fun s => ?_
  split
  · exact hR.bind hR.closed.spot.updateResidualScales fun _ => hR.value _
  · exact hR.value _

end Forward

namespace Routine
variable {P : Problem α σ n} {R : Session α σ n → Session α σ n → Prop}

theorem startFromAccepted (hR : Routine P R) : Follows R (startFromAccepted P) := by
  intro s
  unfold AlgebraicLoop.startFromAccepted
  rw [after_congr (get_bind_apply _ _)]
  split
  · cases hc : s.work.accepted with
    | some c =>
      exact hR.rewind s c hc
    | none => exact hR.light s s (Light.refl s)
  · exact hR.light s s (Light.refl s)

/-- The opening once it is known whether the solve is the first one, and the bracket is empty. -/
theorem openFrom (hR : Routine P R) (first : Bool) : Follows R (do
    if first then AlgebraicLoop.checkStartingPoint P else AlgebraicLoop.startFromAccepted P
    AlgebraicLoop.settlePoint P first) := by
  split
  · exact hR.bind hR.checkStartingPoint fun _ => hR.settlePoint first
  · exact hR.bind hR.startFromAccepted fun _ => hR.settlePoint first

theorem openSolve (hR : Routine P R) : Follows R (openSolve P) := by
  refine hR.bind hR.setUp fun first => ?_
  exact hR.change_bind (fun s => ⟨rfl, rfl, .inr rfl, rfl, rfl, .inl rfl, rfl, rfl, rfl, rfl⟩)
    (hR.openFrom first)

end Routine

/-! ## The course of the phases -/

theorem Follows.trail {γ : Type} {keep : Session α σ n → γ} {β : Type} {a : Action α σ n β}
    (h : Follows (Course keep) a) : Follows Trail a :=
  fun s => (h s).mono (fun _ _ _ h => h.trail) fun _ _ _ h => h.trail

/-- Which attempt of a solve is running. -/
def Session.flags (s : Session α σ n) : Bool × Bool := (s.work.firstAttempt, s.work.retrying)

/-- What start values leave alone. -/
def Session.backdrop (s : Session α σ n) : Workspace α n × Bool × Bool × Bool :=
  (s.work, s.atEvent, s.eventSinceJacobian, s.guessGiven)

theorem Light.course {s t : Session α σ n} (h : Light s t) : Course Session.flags s t := by
  have hcalls : t.calls.toList = s.calls.toList ++ callsSince s t := by
    have new : t.calls.toList = s.calls.toList ++ [] := by rw [h.calls, List.append_nil]
    rw [callsSince_of_eq new, new]
  have hflags : t.flags = s.flags := congrArg (fun p => (p.1, p.2.1)) h.flags
  obtain hbracket | hbracket := h.bracket
  · exact Course.of_eq h.calls hbracket hflags
  · refine ⟨hcalls, fun p hp => ?_, fun _ => ?_, hflags⟩
    · rw [hbracket] at hp
      exact absurd hp (Bracket.not_has_empty p)
    · rw [hbracket]
      exact Bracket.sound_empty

theorem trail_emptied (s : Session α σ n) : Trail s s.emptied :=
  have hlight : Light s s.emptied := ⟨rfl, rfl, .inr rfl, rfl, rfl, .inl rfl, rfl, rfl, rfl, rfl⟩
  hlight.course.trail

theorem course_prepareUnknowns (P : Problem α σ n) :
    Follows (Course Session.backdrop) (prepareUnknowns P) :=
  follows_prepareUnknowns (Course.refl _) (fun _ _ _ => Course.of_call rfl rfl rfl) fun _ _ =>
    Course.of_call rfl rfl rfl

theorem course_setUp (P : Problem α σ n) : Follows (Course Session.flags) (setUp P) := fun s =>
  after_setUp (fun _ => Course.refl _ s) fun _ => Course.of_eq rfl rfl rfl

theorem course_writeBack (P : Problem α σ n) : Follows (Course Session.flags) (writeBack P) :=
  follows_writeBack fun _ => Course.of_call rfl rfl rfl

theorem routine_course (P : Problem α σ n) : Routine P (Course Session.flags) where
  trans _ _ _ := Course.trans
  light _ _ := Light.course
  closed := (closed_course P true (fun p => (p.firstAttempt, p.retrying)) fun _ => rfl).finer
    (fun p => (p.firstAttempt, p.retrying)) fun _ => rfl
  prepareUnknowns s :=
    have coarser : ∀ t, Course Session.backdrop s t → Course Session.flags s t := fun _ h =>
      h.coarser fun e => congrArg (fun p : Workspace α n × Bool × Bool × Bool =>
        (p.1.firstAttempt, p.1.retrying)) e
    (course_prepareUnknowns P s).mono (fun _ t _ => coarser t) fun _ t _ => coarser t
  setUp := course_setUp P
  writeBack := course_writeBack P
  rewind _ _ _ := Course.of_eq rfl rfl rfl

/-! ## A started block -/

/-- The point that a solve of a started block begins with. -/
def startingPoint (P : Problem α σ n) (s : Session α σ n) : Vector α n :=
  if P.options.enforceBounds then project s.lower s.upper s.x else s.x

/-- The session with which a solve of a started block begins. -/
def Session.begun (P : Problem α σ n) (s : Session α σ n) : Session α σ n :=
  { s with counters.solves := s.counters.solves + 1, x := startingPoint P s }

theorem approach_apply (P : Problem α σ n) (s : Session α σ n) :
    approach P s =
      (if s.atEvent ∧ P.auxiliaryCount > 0 then updateAuxiliary P (startingPoint P s) else pure ())
        { s with x := startingPoint P s } := by
  unfold approach
  rw [bind_ok (projectPoint_apply P s)]
  rfl

theorem prelude_started (P : Problem α σ n) (s : Session α σ n) (hs : s.phase ≠ .untouched) :
    prelude P s =
      (if s.atEvent ∧ P.auxiliaryCount > 0 then updateAuxiliary P (startingPoint P s) else pure ())
        (s.begun P) := by
  have hcounted : ({ s with counters.solves := s.counters.solves + 1 } : Session α σ n).phase ≠
      .untouched := hs
  unfold prelude
  rw [modify_bind_apply]
  exact (bind_ok (prepareUnknowns_again hcounted)).trans (approach_apply P _)

/-! ## Phases that come to their end -/

/-- An opening starts to collect points anew. -/
theorem openSolve_ok {P : Problem α σ n} {first : Bool} {s v : Session α σ n}
    (h : openSolve P s = .ok first v) :
    ∃ u : Session α σ n, u.bracket = {} ∧ Trail s u ∧ Trail u v := by
  obtain ⟨first, t, ht, h⟩ := bind_eq_ok.1 h
  rw [modify_bind_apply] at h
  have hempty : Light t { t with bracket := {} } :=
    ⟨rfl, rfl, .inr rfl, rfl, rfl, .inl rfl, rfl, rfl, rfl, rfl⟩
  exact ⟨{ t with bracket := {} }, rfl, ((course_setUp P).ok ht).trail.trans hempty.course.trail,
    (((routine_course P).openFrom first).ok h).trail⟩

theorem firstAttempt_ok {P : Problem α σ n} {standing : Standing α} {s v : Session α σ n}
    (h : firstAttempt P s = .ok standing v) :
    ∃ (attempt : Attempt α) (t : Session α σ n),
      runDamped P (P.options.firstTolerances n) false
          { s with work := { s.work with firstAttempt := true, retrying := false } } =
        .ok attempt t ∧
      refineAttempt P attempt { t with work := { t.work with firstAttempt := false } } =
        .ok (standing.attempt, standing.report.refined) v := by
  unfold firstAttempt at h
  rw [modifyWork_bind_apply] at h
  obtain ⟨attempt, t, ht, h⟩ := bind_eq_ok.1 h
  rw [modifyWork_bind_apply] at h
  obtain ⟨⟨refinement, refined⟩, u, hu, h⟩ := bind_eq_ok.1 h
  cases h
  exact ⟨attempt, t, ht, hu⟩

theorem tryDescent_ok {P : Problem α σ n} {standing standing' : Standing α}
    {s v : Session α σ n} (h : tryDescent P standing s = .ok standing' v) :
    (standing' = standing ∧ v = s) ∨ ∃ attempt,
      (standing.attempt.failed && P.options.steepestDescentFallback) = true ∧
      runDamped P (P.options.firstTolerances n) true
          { s with notices := s.notices.push .descentRetry } = .ok attempt v ∧
      standing' = { standing with attempt, report := standing.report.add attempt } := by
  unfold tryDescent at h
  split at h
  · next hdue =>
    rw [notify_bind_apply] at h
    obtain ⟨attempt, t, ht, h⟩ := bind_eq_ok.1 h
    cases h
    exact .inr ⟨attempt, hdue, ht, rfl⟩
  · cases h
    exact .inl ⟨rfl, rfl⟩

/-- A retry with new residual scales that is due. -/
theorem tryRescaled_due {P : Problem α σ n} {first : Bool} {standing standing' : Standing α}
    {s v : Session α σ n}
    (hdue : P.options.residualScaling ≠ .none ∧ (first = true ∨ standing.attempt.failed = true))
    (h : tryRescaled P first standing s = .ok standing' v) :
    ∃ (retry : Attempt α) (t : Session α σ n),
      rescaledRetry P { s with notices := standing.rescalingNotices s.notices } = .ok retry t ∧
      standing' = ⟨standing.after retry, standing.report.add retry, P.options.retryTolerances.step⟩ ∧
      v = t.concluded (standing.after retry) := by
  rw [tryRescaled_apply, if_pos hdue] at h
  obtain ⟨retry, t, ht, h⟩ := bind_eq_ok.1 h
  rw [concludeRetry_apply] at h
  cases h
  exact ⟨retry, t, ht, rfl, rfl⟩

theorem tryRescaled_ok {P : Problem α σ n} {first : Bool} {standing standing' : Standing α}
    {s v : Session α σ n} (h : tryRescaled P first standing s = .ok standing' v) :
    (standing' = standing ∧ v = s) ∨ ∃ (retry : Attempt α) (t : Session α σ n),
      P.options.residualScaling ≠ .none ∧ (first = true ∨ standing.attempt.failed = true) ∧
      rescaledRetry P { s with notices := standing.rescalingNotices s.notices } = .ok retry t ∧
      standing' = ⟨standing.after retry, standing.report.add retry, P.options.retryTolerances.step⟩ ∧
      v = t.concluded (standing.after retry) := by
  by_cases hdue : P.options.residualScaling ≠ .none ∧
      (first = true ∨ standing.attempt.failed = true)
  · obtain ⟨retry, t, ht, hrest⟩ := tryRescaled_due hdue h
    exact .inr ⟨retry, t, hdue.1, hdue.2, ht, hrest⟩
  · rw [tryRescaled_apply, if_neg hdue] at h
    cases h
    exact .inl ⟨rfl, rfl⟩

theorem tryNominal_ok {P : Problem α σ n} {standing standing' : Standing α} {s v : Session α σ n}
    (h : tryNominal P standing s = .ok standing' v) :
    (standing' = standing ∧ v = s) ∨ ∃ (x : Vector α n) (attempt : Attempt α),
      (standing.attempt.failed && P.options.nominalFallback) = true ∧
      nominalGuess? s.nominal s.lower s.upper P.options.enforceBounds = some x ∧
      runDamped P (P.options.firstTolerances n) false
          { s with
            x
            work := { s.work with jacobianAtPoint := false }
            notices := s.notices.push .nominalRetry } = .ok attempt v ∧
      standing' =
        ⟨attempt, standing.report.add attempt, (P.options.firstTolerances n).step⟩ := by
  unfold tryNominal at h
  split at h
  · next hdue =>
    obtain ⟨_, t, ht, h⟩ := bind_eq_ok.1 h
    obtain ⟨x, hguess, rfl⟩ := restartFromNominal_ok ht
    rw [modifyWork_bind_apply, notify_bind_apply] at h
    obtain ⟨attempt, w, hw, h⟩ := bind_eq_ok.1 h
    cases h
    exact .inr ⟨x, attempt, hdue, hguess, hw, rfl⟩
  · cases h
    exact .inl ⟨rfl, rfl⟩

omit [Scalar α] in
/-- A solve that is closed as a success hands its point to the model and stays there. -/
theorem closeSolve_ok {P : Problem α σ n} {standing : Standing α} {report : Report α}
    {s t : Session α σ n} (h : closeSolve P standing s = .ok report t) :
    standing.attempt.failure = none ∧ report.refined = standing.report.refined ∧
      t = { s with
        phase := .converged
        model := (P.model.writeBack s.x s.model).2
        calls := s.calls.push (.writeBack s.x (.ok ())) } := by
  obtain ⟨_, u, hu, h⟩ := bind_eq_ok.1 h
  unfold writeBack at hu
  rw [get_bind_apply, ask_bind_apply] at hu
  cases hanswer : (P.model.writeBack s.x s.model).1 with
  | error failure =>
    rw [hanswer] at hu
    cases failure with
    | recoverable _ => cases hu
    | fatal _ => cases hu
  | ok _ =>
    rw [hanswer] at hu
    cases hu
    cases hfailure : standing.attempt.failure with
    | some reason =>
      rw [hfailure] at h
      cases h
    | none =>
      rw [hfailure] at h
      cases h
      exact ⟨rfl, rfl, rfl⟩

theorem solveAction_ok {P : Problem α σ n} {report : Report α} {s t : Session α σ n}
    (h : solveAction P s = .ok report t) :
    ∃ u v, prelude P s = .ok () u ∧ solveByMethod P u = .ok report v ∧ t = v.unmarked := by
  rw [solveAction_eq] at h
  obtain ⟨_, u, hu, h⟩ := bind_eq_ok.1 h
  unfold thenAlways at h
  cases hv : solveByMethod P u with
  | error halt v =>
    rw [hv] at h
    cases h
  | ok value v =>
    rw [hv] at h
    cases h
    exact ⟨u, v, hu, hv, rfl⟩

theorem solve_eq_ok {b b' : Block α σ n} {report : Report α} :
    b.solve = (.ok report, b') ↔
      ∃ t, solveAction b.problem b.session = .ok report t ∧ b' = { b with session := t } := by
  unfold Block.solve Block.perform
  constructor
  · intro h
    split at h
    · next hrun =>
      cases h
      exact ⟨_, hrun, rfl⟩
    · cases h
  · rintro ⟨t, hrun, rfl⟩
    rw [hrun]

/-- The block of a loop whose model has an initial point and else only evaluates its residual. -/
def Block.pointwise (options : Options α) (initial : Vector α n)
    (f : Vector α n → Except EvalFailure (Vector α n)) : Block α Unit n where
  problem :=
    { label := "loop"
      options
      model :=
        { Model.ofFunction f with
          start := fun values s => (.ok { values with initial := initial.toArray }, s) }
      auxiliaryCount := 0
      variability := .continuous }
  session := Session.fresh n ()

/-- A value that passes a test. -/
theorem exists_of_toOption_any {ε β : Type} {r : Except ε β} {test : β → Bool}
    (h : r.toOption.any test = true) : ∃ v, r = .ok v ∧ test v = true := by
  cases r with
  | error _ => cases h
  | ok v => exact ⟨v, rfl, h⟩

theorem eq_mk_of_fst {β γ : Type} {p : β × γ} {v : β} (h : p.1 = v) : p = (v, p.2) :=
  Prod.ext h rfl

/-- How an operation halted; `none` when it did not. -/
def haltOf? {β : Type} : Except (Halt α) β → Option (Halt α)
  | .ok _ => none
  | .error halt => some halt

omit [Scalar α] in
theorem eq_error_of_haltOf? {β : Type} {r : Except (Halt α) β} {halt : Halt α}
    (h : haltOf? r = some halt) : r = .error halt := by
  cases r with
  | ok _ => cases h
  | error _ => exact congrArg Except.error (Option.some.inj h)

/-- What is said of a solve that did not converge. -/
def unconverged? {β : Type} : Except (Halt α) β → Option (Unconverged α)
  | .error (.fault (.unconverged details)) => some details
  | _ => none

omit [Scalar α] in
theorem exists_of_unconverged? {β : Type} {r : Except (Halt α) β} {test : Unconverged α → Bool}
    (h : (unconverged? r).any test = true) :
    ∃ details, r = .error (.fault (.unconverged details)) ∧ test details = true := by
  unfold unconverged? at h
  split at h
  · next details => exact ⟨details, rfl, h⟩
  · cases h

/-- Does a solve of the block succeed, and leave a block that passes a test? -/
def Block.solvesTo (b : Block α σ n) (test : Block α σ n → Bool) : Bool :=
  match b.solve with
  | (.ok _, b') => test b'
  | (.error _, _) => false

theorem Block.exists_of_solvesTo {b : Block α σ n} {test : Block α σ n → Bool}
    (h : b.solvesTo test = true) :
    ∃ report b', b.solve = (.ok report, b') ∧ test b' = true := by
  unfold Block.solvesTo at h
  split at h
  · next report b' hsolve => exact ⟨report, b', hsolve, h⟩
  · cases h

/-- How many attempts a successful solve of the block takes. -/
def Block.attempts? (b : Block α σ n) : Option Nat := b.solve.1.toOption.map Report.attempts

/-- The phases of a solve by the damped method that succeeds. -/
theorem solveDamped_ok {P : Problem α σ n} {report : Report α} {s u t : Session α σ n}
    (hprelude : prelude P s = .ok () u) (h : solveDamped P u = .ok report t) :
    ∃ (first : Bool) (opening rescaled final : Standing α) (v w y : Session α σ n),
      openingAttempts P s = .ok (first, opening) v ∧ tryRescaled P first opening v = .ok rescaled w ∧
      tryNominal P rescaled w = .ok final y ∧ closeSolve P final y = .ok report t := by
  obtain ⟨first, s₁, hopen, h⟩ := bind_eq_ok.1 h
  obtain ⟨standing, s₂, hfirst, h⟩ := bind_eq_ok.1 h
  obtain ⟨opening, v, hdescent, h⟩ := bind_eq_ok.1 h
  obtain ⟨rescaled, w, hrescaled, h⟩ := bind_eq_ok.1 h
  obtain ⟨final, y, hfinal, h⟩ := bind_eq_ok.1 h
  refine ⟨first, opening, rescaled, final, v, w, y, ?_, hrescaled, hfinal, h⟩
  unfold openingAttempts
  rw [bind_ok hprelude, bind_ok hopen, bind_ok hfirst, bind_ok hdescent]
  rfl

end

end AlgebraicLoop
