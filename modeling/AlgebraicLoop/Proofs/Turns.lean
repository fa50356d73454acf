import AlgebraicLoop.Proofs.Phases

/-!
# The positions of a solve

A solve is a computation; what can be said of it between its ends is said of the positions it comes
to. Each position is a session together with the way that led there from the session the solve began
in.

* `heading_eq_ok`, `Heading.search`: the parts of an iteration that comes to a step, and its search;
* `searchAndMove_stays`, `searchAndMove_moves`: what the iteration comes to, without a point and with
  one;
* `Walk`: the positions of an attempt of the damped method, with the points it has accepted;
* `runDamped_after`, `runDamped_eq_ok`: every attempt ends at such a position;
* `Walk.known`, `Walk.standpoint`: what is known of the points and the residual at a position;
* `Launch`, `Strides`, `Turn`: the attempts of a solve, the positions of the undamped method, and for
  all methods the positions where the Jacobian is prepared.
-/

namespace AlgebraicLoop
set_option autoImplicit false

section
variable {α σ : Type} [Scalar α] {n : Nat}

/-! ## A search that finds a point -/

theorem backtrack_ok {P : Problem α σ n} {x step scale : Vector α n}
    {start slope leastDamping : α} {budget : Nat} {damping : α} {a : Accepted α n}
    {s t : Session α σ n}
    (h : backtrack P x step scale start slope leastDamping budget damping s = .ok (.ok a) t) :
    Evaluated s t a.x a.f := by
  induction budget generalizing damping s with
  | zero => cases h
  | succ budget ih =>
    unfold backtrack at h
    split at h
    · cases h
    · obtain ⟨answer, u, hu, h⟩ := bind_eq_ok.1 h
      have hsu := (course_evaluate P _).ok hu
      cases answer with
      | error _ =>
        have hut := ((closed_course P true id fun _ => rfl).backtrack
          (fun s => Course.refl _ s) x step scale start slope leastDamping budget _).ok h
        exact (ih h).earlier hsu.calls hut.calls
      | ok g =>
        dsimp only at h
        split at h
        · cases h
          exact evaluated_of_ok hu
        · cases hnext : shorten? start (merit g scale) slope damping with
          | some next =>
            rw [hnext] at h
            have hut := ((closed_course P true id fun _ => rfl).backtrack
              (fun s => Course.refl _ s) x step scale start slope leastDamping budget _).ok h
            exact (ih h).earlier hsu.calls hut.calls
          | none =>
            rw [hnext] at h
            cases h

theorem lineSearch_ok {P : Problem α σ n} {x f step : Vector α n} {length stepTolerance : α}
    {a : Accepted α n} {s t : Session α σ n}
    (h : lineSearch P x f step length stepTolerance s = .ok (.ok a) t) :
    Evaluated s t a.x a.f := by
  unfold lineSearch at h
  rw [get_bind_apply] at h
  split at h
  · cases h
  · exact backtrack_ok h

/-- The session after a move to an accepted point. -/
def Session.moved (s : Session α σ n) (x f : Vector α n) (a : Accepted α n) : Session α σ n :=
  { s with
    x := a.x
    counters.iterations := s.counters.iterations + 1
    work :=
      { s.work with
        history := some ⟨a.x.zipWith (· - ·) x, f⟩
        jacobianAtPoint := false
        lastNorm := scaledNorm a.f s.work.residualScale } }

theorem moveTo_bind_apply {β : Type} (x f : Vector α n) (a : Accepted α n)
    (k : Unit → Action α σ n β) (s : Session α σ n) :
    (moveTo x f a >>= k) s = k () (s.moved x f a) := rfl

/-! ## An iteration that comes to a step -/

/-- The parts of an iteration that comes to a step. -/
theorem heading_eq_ok {P : Problem α σ n} {tol : Tolerances α} {descent tighten : Bool}
    {iteration : Nat} {f : Vector α n} {norm : α} {record : RunRecord α} {s v : Session α σ n}
    {h : Heading α n}
    (hrun : heading P tol descent tighten iteration f norm record s = .ok (.inr h) v) :
    ∃ (t u w : Session α σ n) (step : Vector α n) (kind : StepKind),
      prepareJacobian P iteration s.x f s = .ok (.ok h.fresh) t ∧
      tightenedNorm P tighten iteration h.fresh s.x f norm t = .ok h.norm u ∧
      computeStep P f tol.step u = .ok (some (step, kind)) w ∧
      searchDirection P descent s.x f step kind w = .ok (h.step, h.kind) v := by
  unfold heading at hrun
  rw [get_bind_apply] at hrun
  obtain ⟨answer, t, ht, hrun⟩ := bind_eq_ok.1 hrun
  cases answer with
  | error mishap => cases hrun
  | ok fresh =>
    obtain ⟨norm', u, hu, hrun⟩ := bind_eq_ok.1 hrun
    obtain ⟨found, w, hw, hrun⟩ := bind_eq_ok.1 hrun
    cases found with
    | none => cases hrun
    | some found =>
      obtain ⟨chosen, y, hy, hrun⟩ := bind_eq_ok.1 hrun
      cases hrun
      exact ⟨t, u, w, found.1, found.2, ht, hu, hw, hy⟩

/-- An iteration that comes to no step stops for one of two reasons. -/
theorem heading_stopped {P : Problem α σ n} {tol : Tolerances α} {descent tighten : Bool}
    {iteration : Nat} {f : Vector α n} {norm : α} {record : RunRecord α} {s t : Session α σ n}
    {attempt : Attempt α}
    (h : heading P tol descent tighten iteration f norm record s = .ok (.inl attempt) t) :
    attempt = record.stopped .jacobian ∨ attempt = record.stopped .linearSolve := by
  unfold heading at h
  rw [get_bind_apply] at h
  obtain ⟨answer, u, hu, h⟩ := bind_eq_ok.1 h
  cases answer with
  | error mishap =>
    cases h
    exact .inl rfl
  | ok fresh =>
    obtain ⟨norm, v, hv, h⟩ := bind_eq_ok.1 h
    obtain ⟨found, w, hw, h⟩ := bind_eq_ok.1 h
    cases found with
    | none =>
      cases h
      exact .inr rfl
    | some found =>
      obtain ⟨chosen, y, hy, h⟩ := bind_eq_ok.1 h
      cases h

namespace Heading

/-- The session in which the search along a step begins. -/
def facing (h : Heading α n) (s : Session α σ n) : Session α σ n :=
  { s with phase := h.kind.phase }

/-- The length of the step from `x`, beside the size of the unknowns. -/
def length (h : Heading α n) (x : Vector α n) (s : Session α σ n) : α :=
  relativeLength h.step x s.work.variableScale

/-- The search along a step from `x`, where the residual is `f`. -/
def search (h : Heading α n) (P : Problem α σ n) (tol : Tolerances α) (x f : Vector α n)
    (s : Session α σ n) :
    EStateM.Result (Halt α) (Session α σ n) (Except FailureReason (Accepted α n)) :=
  lineSearch P x f h.step (relativeLength h.step x s.work.variableScale) tol.step (h.facing s)

/-- The search leaves this session, with an answer or because it halts. -/
def Leaves (h : Heading α n) (P : Problem α σ n) (tol : Tolerances α) (x f : Vector α n)
    (s t : Session α σ n) : Prop :=
  (∃ answer, h.search P tol x f s = .ok answer t) ∨ ∃ halt, h.search P tol x f s = .error halt t

end Heading

/-- The record of the iterations so far. -/
def Progress.record : Progress α n → RunRecord α
  | .over attempt => attempt.record
  | .onward _ _ record => record

/-- A session whose next iteration must evaluate a fresh Jacobian. -/
def Session.pressed (s : Session α σ n) : Session α σ n :=
  { s with work := { s.work with flags.forceNewJacobian := true } }

/-- The record of a step that was accepted. -/
def Heading.stride (h : Heading α n) (iteration : Nat) (x : Vector α n) (s w : Session α σ n)
    (a : Accepted α n) : IterationRecord α where
  iteration
  residualNorm := scaledNorm a.f w.work.residualScale
  stepNorm := a.damping * h.length x s
  damping := a.damping
  stepKind := h.kind
  freshJacobian := h.fresh

theorem verdictAfterStep_record {o : Options α} {tol : Tolerances α} {norm stepNorm : α}
    {record : RunRecord α} {attempt : Attempt α}
    (h : verdictAfterStep o tol norm stepNorm record = some attempt) :
    attempt.record = record := by
  unfold verdictAfterStep at h
  split at h
  · cases h
    rfl
  · split at h
    · split at h
      all_goals
        cases h
        rfl
    · cases h

section
variable {P : Problem α σ n} {tol : Tolerances α} {iteration : Nat} {h : Heading α n}
  {x f : Vector α n} {record : RunRecord α} {s t w : Session α σ n} {progress : Progress α n}

theorem searchAndMove_failed {reason : FailureReason}
    (hsearch : h.search P tol x f s = .ok (.error reason) w) :
    searchAndMove P tol iteration h.fresh x f h.norm record h.step h.kind s =
      if h.fresh = false then .ok (.onward f h.norm record) w.pressed
      else if settlesFor P.options reason h.norm = true then .ok (.over record.converged) w
      else .ok (.over (record.stopped reason)) w := by
  unfold searchAndMove
  rw [modify_bind_apply, get_bind_apply]
  refine (bind_ok hsearch).trans ?_
  cases h.fresh with
  | false => rfl
  | true =>
    rw [if_neg (by decide)]
    dsimp only
    rw [if_neg (by decide)]
    split <;> rfl

theorem searchAndMove_found {a : Accepted α n} (hsearch : h.search P tol x f s = .ok (.ok a) w) :
    searchAndMove P tol iteration h.fresh x f h.norm record h.step h.kind s =
      .ok (match verdictAfterStep P.options tol (scaledNorm a.f w.work.residualScale)
          (a.damping * h.length x s) (record.push (h.stride iteration x s w a)) with
        | some attempt => .over attempt
        | none => .onward a.f (scaledNorm a.f w.work.residualScale)
            (record.push (h.stride iteration x s w a))) (w.moved x f a) := by
  unfold searchAndMove
  rw [modify_bind_apply, get_bind_apply]
  refine (bind_ok hsearch).trans ?_
  change (match verdictAfterStep P.options tol (scaledNorm a.f w.work.residualScale)
      (a.damping * h.length x s) (record.push (h.stride iteration x s w a)) with
    | some attempt => pure (.over attempt)
    | none => pure (.onward a.f (scaledNorm a.f w.work.residualScale)
        (record.push (h.stride iteration x s w a))) : Action α σ n (Progress α n))
      (w.moved x f a) = _
  cases verdictAfterStep P.options tol (scaledNorm a.f w.work.residualScale)
    (a.damping * h.length x s) (record.push (h.stride iteration x s w a)) <;> rfl

theorem searchAndMove_searches
    (hrun : searchAndMove P tol iteration h.fresh x f h.norm record h.step h.kind s =
      .ok progress t) :
    ∃ answer w, h.search P tol x f s = .ok answer w := by
  unfold searchAndMove at hrun
  rw [modify_bind_apply, get_bind_apply] at hrun
  obtain ⟨answer, w, hw, _⟩ := bind_eq_ok.1 hrun
  exact ⟨answer, w, hw⟩

/-- A search that finds no point leaves the attempt where it is. -/
theorem searchAndMove_stays {reason : FailureReason}
    (hsearch : h.search P tol x f s = .ok (.error reason) w)
    (hrun : searchAndMove P tol iteration h.fresh x f h.norm record h.step h.kind s =
      .ok progress t) :
    progress.record = record ∧
      (progress = .onward f h.norm record ∧ h.fresh = false ∧ t = w.pressed ∨
        (∃ attempt, progress = .over attempt) ∧ t = w) := by
  rw [searchAndMove_failed hsearch] at hrun
  split at hrun
  · next hstale =>
    cases hrun
    exact ⟨rfl, .inl ⟨rfl, hstale, rfl⟩⟩
  · split at hrun
    all_goals
      cases hrun
      exact ⟨rfl, .inr ⟨⟨_, rfl⟩, rfl⟩⟩

/-- A search that found a point moves to it, and puts the step on record. -/
theorem searchAndMove_moves {a : Accepted α n} (hsearch : h.search P tol x f s = .ok (.ok a) w)
    (hrun : searchAndMove P tol iteration h.fresh x f h.norm record h.step h.kind s =
      .ok progress t) :
    t = w.moved x f a ∧ progress.record = record.push (h.stride iteration x s w a) ∧
      ∀ g norm record', progress = .onward g norm record' →
        g = a.f ∧ norm = scaledNorm g w.work.residualScale := by
  rw [searchAndMove_found hsearch] at hrun
  generalize hverdict : verdictAfterStep P.options tol _ _ _ = verdict at hrun
  cases verdict with
  | some attempt =>
    cases hrun
    exact ⟨rfl, verdictAfterStep_record hverdict, fun _ _ _ hp => nomatch hp⟩
  | none =>
    cases hrun
    refine ⟨rfl, rfl, fun g norm record' hp => ?_⟩
    cases hp
    exact ⟨rfl, rfl⟩

end

/-! ## The positions of an attempt -/

/-- An accepted point of an attempt with its residual, and the residual scales when it was
accepted. -/
structure Waypoint (α : Type) (n : Nat) where
  x : Vector α n
  f : Vector α n
  scale : Vector α n

/-- The merit of a waypoint when it was accepted. -/
def Waypoint.merit (p : Waypoint α n) : α := AlgebraicLoop.merit p.f p.scale

namespace Session

/-- The session in which an attempt evaluates its starting point. -/
def cleared (s : Session α σ n) : Session α σ n :=
  { s with work := { s.work with history := none, flags.useSteepestDescent := false } }

/-- The session after the norm of the residual `f` was taken. -/
def normed (s : Session α σ n) (f : Vector α n) : Session α σ n :=
  { s with work := { s.work with lastNorm := scaledNorm f s.work.residualScale } }

/-- The record of an attempt at its starting point, where the residual is `f`. -/
def blankRecord (s : Session α σ n) (f : Vector α n) : RunRecord α :=
  { RunRecord.empty with residualNorm := scaledNorm f s.work.residualScale }

end Session

/-- The beginning of an attempt. -/
theorem runDamped_apply (P : Problem α σ n) (tol : Tolerances α) (descent : Bool)
    (s : Session α σ n) :
    runDamped P tol descent s = match evaluate P s.x s.cleared with
      | .error halt t => .error halt t
      | .ok (.error _) t => .ok (RunRecord.empty.stopped .initialEvaluation) t
      | .ok (.ok f) t =>
        if scaledNorm f t.work.residualScale ≤ 0.01 * tol.function then
          .ok (t.blankRecord f).converged (t.normed f)
        else
          loopDamped P tol descent (tightensScales P.options s.work) P.options.maxIterations 1 f
            (scaledNorm f t.work.residualScale) (t.blankRecord f) (t.normed f) := by
  change (evaluate P s.x >>= _) s.cleared = _
  rw [bind_apply]
  cases hf : evaluate P s.x s.cleared with
  | error halt t => rfl
  | ok answer t =>
    cases answer with
    | error mishap => rfl
    | ok f =>
      have hfirst : t.work.firstAttempt = s.work.firstAttempt :=
        congrArg (fun p : Footing α n => p.firstAttempt) ((course_evaluate P _).ok hf).keeps
      have htighten : tightensScales P.options s.work = tightensScales P.options t.work := by
        unfold tightensScales
        rw [hfirst]
      dsimp only
      rw [get_bind_apply, modifyWork_bind_apply, htighten]
      split
      · rfl
      · rfl

variable (P : Problem α σ n) (tol : Tolerances α) (descent : Bool) (s : Session α σ n)

/-- The attempt from `s` comes to a session: after how many iterations, over which points, newest
first, and whether it is over there. -/
inductive Walk : Nat → List (Waypoint α n) → Progress α n → Session α σ n → Prop
  | undefined {mishap : Mishap} {t : Session α σ n} :
      evaluate P s.x s.cleared = .ok (.error mishap) t →
      Walk 0 [] (.over (RunRecord.empty.stopped .initialEvaluation)) t
  | solved {f : Vector α n} {t : Session α σ n} :
      evaluate P s.x s.cleared = .ok (.ok f) t →
      scaledNorm f t.work.residualScale ≤ 0.01 * tol.function →
      Walk 0 [⟨s.x, f, t.work.residualScale⟩] (.over (t.blankRecord f).converged) (t.normed f)
  | start {f : Vector α n} {t : Session α σ n} :
      evaluate P s.x s.cleared = .ok (.ok f) t →
      ¬ scaledNorm f t.work.residualScale ≤ 0.01 * tol.function →
      Walk 0 [⟨s.x, f, t.work.residualScale⟩]
        (.onward f (scaledNorm f t.work.residualScale) (t.blankRecord f)) (t.normed f)
  | exhausted {k : Nat} {path : List (Waypoint α n)} {f : Vector α n} {norm : α}
      {record : RunRecord α} {u : Session α σ n} :
      Walk k path (.onward f norm record) u → P.options.maxIterations ≤ k →
      Walk k path (.over (record.stopped .maxIterations)) u
  | gaveUp {k : Nat} {path : List (Waypoint α n)} {f : Vector α n} {norm : α}
      {record : RunRecord α} {u v : Session α σ n} {attempt : Attempt α} :
      Walk k path (.onward f norm record) u → k < P.options.maxIterations →
      heading P tol descent (tightensScales P.options s.work) (k + 1) f norm record u =
        .ok (.inl attempt) v →
      Walk (k + 1) path (.over attempt) v
  | stays {k : Nat} {path : List (Waypoint α n)} {f : Vector α n} {norm : α}
      {record : RunRecord α} {u v w t : Session α σ n} {h : Heading α n} {reason : FailureReason}
      {progress : Progress α n} :
      Walk k path (.onward f norm record) u → k < P.options.maxIterations →
      heading P tol descent (tightensScales P.options s.work) (k + 1) f norm record u =
        .ok (.inr h) v →
      h.search P tol u.x f v = .ok (.error reason) w →
      searchAndMove P tol (k + 1) h.fresh u.x f h.norm record h.step h.kind v = .ok progress t →
      Walk (k + 1) path progress t
  | moves {k : Nat} {path : List (Waypoint α n)} {f : Vector α n} {norm : α}
      {record : RunRecord α} {u v w t : Session α σ n} {h : Heading α n}
      {accepted : Accepted α n} {progress : Progress α n} :
      Walk k path (.onward f norm record) u → k < P.options.maxIterations →
      heading P tol descent (tightensScales P.options s.work) (k + 1) f norm record u =
        .ok (.inr h) v →
      h.search P tol u.x f v = .ok (.ok accepted) w →
      searchAndMove P tol (k + 1) h.fresh u.x f h.norm record h.step h.kind v = .ok progress t →
      Walk (k + 1) (⟨accepted.x, accepted.f, w.work.residualScale⟩ :: path) progress t

variable {P tol descent s}

/-- What the attempt still has to do at a position. -/
def remaining (P : Problem α σ n) (tol : Tolerances α) (descent tighten : Bool) (k : Nat) :
    Progress α n → Action α σ n (Attempt α)
  | .over attempt => pure attempt
  | .onward f norm record =>
    loopDamped P tol descent tighten (P.options.maxIterations - k) (k + 1) f norm record

theorem remaining_onward {tighten : Bool} {k : Nat} (hk : k < P.options.maxIterations)
    (f : Vector α n) (norm : α) (record : RunRecord α) (u : Session α σ n) :
    remaining P tol descent tighten k (.onward f norm record) u =
      (iterateDamped P tol descent tighten (k + 1) f norm record >>=
        remaining P tol descent tighten (k + 1)) u := by
  have hbudget : P.options.maxIterations - k = P.options.maxIterations - (k + 1) + 1 := by omega
  unfold remaining
  rw [hbudget]
  refine congrFun (bind_congr fun progress => ?_) u
  match progress with
  | .over _ => rfl
  | .onward _ _ _ => rfl

theorem iterateDamped_apply {tighten : Bool} {k : Nat} {f : Vector α n} {norm : α}
    {record : RunRecord α} {u v : Session α σ n} {found : Attempt α ⊕ Heading α n}
    (h : heading P tol descent tighten k f norm record u = .ok found v) :
    iterateDamped P tol descent tighten k f norm record u =
      match found with
      | .inl attempt => .ok (.over attempt) v
      | .inr h => searchAndMove P tol k h.fresh u.x f h.norm record h.step h.kind v := by
  rw [iterateDamped_eq, get_bind_apply, bind_ok h]
  cases found <;> rfl

/-- From each of its positions an attempt comes to the end that it comes to from the start. -/
theorem Walk.rest {k : Nat} {path : List (Waypoint α n)} {progress : Progress α n}
    {u : Session α σ n} (h : Walk P tol descent s k path progress u) :
    runDamped P tol descent s =
      remaining P tol descent (tightensScales P.options s.work) k progress u := by
  have next : ∀ {k : Nat} {f : Vector α n} {norm : α} {record : RunRecord α}
      {u v t : Session α σ n} {h : Heading α n} {progress : Progress α n},
      runDamped P tol descent s = remaining P tol descent (tightensScales P.options s.work) k
        (.onward f norm record) u → k < P.options.maxIterations →
      heading P tol descent (tightensScales P.options s.work) (k + 1) f norm record u =
        .ok (.inr h) v →
      searchAndMove P tol (k + 1) h.fresh u.x f h.norm record h.step h.kind v = .ok progress t →
      runDamped P tol descent s =
        remaining P tol descent (tightensScales P.options s.work) (k + 1) progress t := by
    intro k f norm record u v t h progress ih hk hheading hmove
    rw [ih, remaining_onward hk, bind_ok ((iterateDamped_apply hheading).trans hmove)]
  induction h with
  | undefined hf => rw [runDamped_apply, hf, remaining, pure_apply]
  | solved hf hle =>
    rw [runDamped_apply, hf]
    exact if_pos hle
  | start hf hle =>
    rw [runDamped_apply, hf]
    exact if_neg hle
  | exhausted _ hk ih =>
    rw [ih]
    unfold remaining
    rw [Nat.sub_eq_zero_of_le hk]
    rfl
  | gaveUp _ hk hheading ih =>
    rw [ih, remaining_onward hk, bind_ok (iterateDamped_apply hheading)]
  | stays _ hk hheading _ hmove ih => exact next ih hk hheading hmove
  | moves _ hk hheading _ hmove ih => exact next ih hk hheading hmove

/-- An iteration from a position leads to the next one. -/
theorem Walk.iterate {k : Nat} {path : List (Waypoint α n)} {f : Vector α n} {norm : α}
    {record : RunRecord α} {u t : Session α σ n} {progress : Progress α n}
    (h : Walk P tol descent s k path (.onward f norm record) u) (hk : k < P.options.maxIterations)
    (hrun : iterateDamped P tol descent (tightensScales P.options s.work) (k + 1) f norm record u =
      .ok progress t) : ∃ path', Walk P tol descent s (k + 1) path' progress t := by
  rw [iterateDamped_eq, get_bind_apply] at hrun
  obtain ⟨found, v, hv, hrun⟩ := bind_eq_ok.1 hrun
  cases found with
  | inl attempt =>
    cases hrun
    exact ⟨path, h.gaveUp hk hv⟩
  | inr q =>
    obtain ⟨answer, w, hw⟩ := searchAndMove_searches hrun
    cases answer with
    | error reason => exact ⟨path, h.stays hk hv hw hrun⟩
    | ok accepted => exact ⟨_, h.moves hk hv hw hrun⟩

/-- The ends of the iterations that are left at a position. -/
theorem Walk.loop {k : Nat} {path : List (Waypoint α n)} {f : Vector α n} {norm : α}
    {record : RunRecord α} {u : Session α σ n} (budget : Nat)
    (h : Walk P tol descent s k path (.onward f norm record) u)
    (hbudget : k + budget = P.options.maxIterations) :
    After (loopDamped P tol descent (tightensScales P.options s.work) budget (k + 1) f norm record) u
      (fun attempt t => ∃ k path, Walk P tol descent s k path (.over attempt) t)
      fun halt t => ∃ k path f norm record v,
        Walk P tol descent s k path (.onward f norm record) v ∧ k < P.options.maxIterations ∧
        iterateDamped P tol descent (tightensScales P.options s.work) (k + 1) f norm record v =
          .error halt t := by
  induction budget generalizing k path f norm record u with
  | zero => exact ⟨k, path, h.exhausted (Nat.le_of_eq hbudget.symm)⟩
  | succ budget ih =>
    have hk : k < P.options.maxIterations := by omega
    change After (iterateDamped P tol descent _ (k + 1) f norm record >>= _) u _ _
    rw [after_bind]
    refine .intro (fun progress t hrun => ?_) fun _ _ hrun => ⟨k, path, f, norm, record, u, h, hk, hrun⟩
    obtain ⟨path', hwalk⟩ := h.iterate hk hrun
    match progress, hwalk with
    | .over _, hwalk => exact ⟨k + 1, path', hwalk⟩
    | .onward _ _ _, hwalk => exact ih hwalk (by omega)

theorem runDamped_after (P : Problem α σ n) (tol : Tolerances α) (descent : Bool)
    (s : Session α σ n) :
    After (runDamped P tol descent) s
      (fun attempt t => ∃ k path, Walk P tol descent s k path (.over attempt) t)
      fun halt t => evaluate P s.x s.cleared = .error halt t ∨ ∃ k path f norm record v,
        Walk P tol descent s k path (.onward f norm record) v ∧ k < P.options.maxIterations ∧
        iterateDamped P tol descent (tightensScales P.options s.work) (k + 1) f norm record v =
          .error halt t := by
  unfold After
  cases hf : evaluate P s.x s.cleared with
  | error halt t =>
    rw [runDamped_apply, hf]
    exact .inl rfl
  | ok answer t =>
    cases answer with
    | error mishap =>
      have hwalk : Walk P tol descent s 0 [] _ t := .undefined hf
      rw [hwalk.rest]
      exact ⟨0, [], hwalk⟩
    | ok f =>
      by_cases hle : scaledNorm f t.work.residualScale ≤ 0.01 * tol.function
      · have hwalk : Walk P tol descent s 0 _ _ (t.normed f) := .solved hf hle
        rw [hwalk.rest]
        exact ⟨0, _, hwalk⟩
      · have hwalk : Walk P tol descent s 0 _ _ (t.normed f) := .start hf hle
        rw [hwalk.rest]
        exact (hwalk.loop _ (Nat.zero_add _)).mono (fun _ _ _ h => h) fun _ _ _ h => .inr h

/-- An attempt that comes to an end does so at one of its positions, and at none else. -/
theorem runDamped_eq_ok {attempt : Attempt α} {t : Session α σ n} :
    runDamped P tol descent s = .ok attempt t ↔
      ∃ k path, Walk P tol descent s k path (.over attempt) t :=
  ⟨fun h => (runDamped_after P tol descent s).ok h, fun ⟨_, _, h⟩ => h.rest⟩

/-! ## What a position knows -/

theorem course_tightenedNorm (P : Problem α σ n) (tighten : Bool) (iteration : Nat)
    (fresh : Bool) (x f : Vector α n) (norm : α) :
    Follows (Course (Session.spot P)) (tightenedNorm P tighten iteration fresh x f norm) :=
  (closed_course P true Footing.toSpot fun _ => rfl).hold.tightenedNorm tighten iteration fresh x f
    norm

theorem tightenedNorm_cases {P : Problem α σ n} {tighten fresh : Bool} {iteration : Nat}
    {x f : Vector α n} {norm norm' : α} {s t u : Session α σ n}
    (h : tightenedNorm P tighten iteration fresh x f norm t = .ok norm' u)
    (hst : Course (Session.footing P) s t) :
    Course (Session.footing P) s u ∧ norm' = norm ∨
      Course (Session.spot P) s u ∧ norm' = scaledNorm f u.work.residualScale := by
  unfold tightenedNorm at h
  split at h
  · obtain ⟨_, v, hv, h⟩ := bind_eq_ok.1 h
    cases h
    exact .inr ⟨(hst.coarser (congrArg Footing.toSpot)).trans
      ((course_tightenResidualScales P _).ok hv), rfl⟩
  · cases h
    exact .inl ⟨hst, rfl⟩

theorem course_heading (P : Problem α σ n) (tol : Tolerances α) (descent tighten : Bool)
    (iteration : Nat) (f : Vector α n) (norm : α) (record : RunRecord α) :
    Follows (Course (Session.spot P)) (heading P tol descent tighten iteration f norm record) :=
  (closed_course P true Footing.toSpot fun _ => rfl).heading tol descent tighten iteration f norm
    record

theorem Heading.course_search (h : Heading α n) {x f : Vector α n} {s t : Session α σ n}
    {answer : Except FailureReason (Accepted α n)} (hrun : h.search P tol x f s = .ok answer t) :
    Course (Session.footing P) s t :=
  Course.trans (Course.of_eq rfl rfl rfl : Course (Session.footing P) s (h.facing s))
    ((course_lineSearch P _ _ _ _ _).ok hrun)

theorem Heading.search_evaluated (h : Heading α n) {x f : Vector α n} {s t : Session α σ n}
    {a : Accepted α n} (hrun : h.search P tol x f s = .ok (.ok a) t) : Evaluated s t a.x a.f := by
  have hfacing : Course (Session.footing P) s (h.facing s) := Course.of_eq rfl rfl rfl
  exact (lineSearch_ok hrun).earlier hfacing.calls ((course_lineSearch P _ _ _ _ _).ok hrun).calls

/-- What is known at a position of an attempt: the session is at the last accepted point, and all
points it came over are on record with their residuals. -/
structure Walk.Known (P : Problem α σ n) (s : Session α σ n) (path : List (Waypoint α n))
    (progress : Progress α n) (u : Session α σ n) : Prop where
  course : Course (Session.stage P) s u
  at_point : u.x = (path.head?.map Waypoint.x).getD s.x
  evaluated : ∀ p ∈ path, Evaluated s u p.x p.f
  last : ∀ f norm record, progress = .onward f norm record → ∃ scale, path.head? = some ⟨u.x, f, scale⟩

theorem Walk.Known.keep {path : List (Waypoint α n)} {progress progress' : Progress α n}
    {u v : Session α σ n} (h : Walk.Known P s path progress u) (huv : Course (Session.spot P) u v)
    (hlast : ∀ f norm record, progress' = .onward f norm record →
      ∃ norm record, progress = .onward f norm record) : Walk.Known P s path progress' v := by
  have hx : v.x = u.x := congrArg Spot.x huv.keeps
  refine ⟨h.course.trans (huv.coarser (congrArg Spot.toStage)), hx.trans h.at_point,
    fun p hp => (h.evaluated p hp).later h.course.calls huv.calls, fun f norm record hp => ?_⟩
  obtain ⟨norm', record', hprogress⟩ := hlast f norm record hp
  rw [hx]
  exact h.last f norm' record' hprogress

/-- The evaluation that an attempt begins with leaves the point. -/
theorem course_begin {answer : Except Mishap (Vector α n)} {t : Session α σ n}
    (hf : evaluate P s.x s.cleared = .ok answer t) : Course (Session.stage P) s t ∧ t.x = s.x := by
  have hrun := (course_evaluate P _).ok hf
  have hclear : Course (Session.stage P) s s.cleared := Course.of_eq rfl rfl rfl
  exact ⟨hclear.trans (hrun.coarser (congrArg fun p : Footing α n => p.toStage)), hrun.point⟩

theorem Walk.Known.begin {f : Vector α n} {t : Session α σ n} (progress : Progress α n)
    (hf : evaluate P s.x s.cleared = .ok (.ok f) t)
    (hg : ∀ g norm record, progress = .onward g norm record → g = f) :
    Walk.Known P s [⟨s.x, f, t.work.residualScale⟩] progress (t.normed f) := by
  obtain ⟨hcourse, hx⟩ := course_begin hf
  refine ⟨hcourse.trans (Course.of_eq rfl rfl rfl), hx, fun p hp => ?_, fun g norm record hp => ?_⟩
  · obtain rfl := List.mem_singleton.1 hp
    have hfound : Evaluated s.cleared t s.x f := evaluated_of_ok hf
    exact hfound
  · rw [hg g norm record hp]
    exact ⟨_, congrArg (fun x => some (Waypoint.mk x f t.work.residualScale)) hx.symm⟩

section
variable {h : Heading α n} {iteration : Nat} {x f : Vector α n} {record : RunRecord α}
  {progress : Progress α n} {v w t : Session α σ n}

/-- A search that finds no point leaves the attempt where it is. -/
theorem Heading.stays {reason : FailureReason} (hsearch : h.search P tol x f v = .ok (.error reason) w)
    (hmove : searchAndMove P tol iteration h.fresh x f h.norm record h.step h.kind v =
      .ok progress t) :
    Course (Session.spot P) v t ∧ ∀ g norm record', progress = .onward g norm record' → g = f := by
  have hvw : Course (Session.spot P) v w :=
    (h.course_search hsearch).coarser (congrArg Footing.toSpot)
  obtain ⟨_, ⟨rfl, _, rfl⟩ | ⟨⟨_, rfl⟩, rfl⟩⟩ := searchAndMove_stays hsearch hmove
  · refine ⟨hvw.trans (Course.of_eq rfl rfl rfl), fun g norm record' hp => ?_⟩
    cases hp
    rfl
  · exact ⟨hvw, fun _ _ _ hp => nomatch hp⟩

/-- A point that was found is on record with its residual, and the attempt moves there. -/
theorem Heading.moves {accepted : Accepted α n} (hsearch : h.search P tol x f v = .ok (.ok accepted) w)
    (hmove : searchAndMove P tol iteration h.fresh x f h.norm record h.step h.kind v =
      .ok progress t) :
    Course (Session.spot P) v w ∧ Evaluated v w accepted.x accepted.f ∧ t = w.moved x f accepted ∧
      ∀ g norm record', progress = .onward g norm record' → g = accepted.f := by
  have hvw : Course (Session.spot P) v w :=
    (h.course_search hsearch).coarser (congrArg Footing.toSpot)
  obtain ⟨hmoved, _, hnext⟩ := searchAndMove_moves hsearch hmove
  exact ⟨hvw, h.search_evaluated hsearch, hmoved, fun g norm record' hp =>
    (hnext g norm record' hp).1⟩

end

theorem Walk.known {k : Nat} {path : List (Waypoint α n)} {progress : Progress α n}
    {u : Session α σ n} (h : Walk P tol descent s k path progress u) :
    Walk.Known P s path progress u := by
  induction h with
  | undefined hf =>
    obtain ⟨hcourse, hx⟩ := course_begin hf
    exact ⟨hcourse, hx, fun _ hp => (List.not_mem_nil hp).elim, fun _ _ _ hp => nomatch hp⟩
  | solved hf _ => exact .begin _ hf fun _ _ _ hp => nomatch hp
  | start hf _ =>
    refine .begin _ hf fun _ _ _ hp => ?_
    cases hp
    rfl
  | exhausted _ _ ih => exact ih.keep (Course.refl _ _) fun _ _ _ hp => nomatch hp
  | gaveUp _ _ hheading ih =>
    exact ih.keep ((course_heading P _ _ _ _ _ _ _).ok hheading) fun _ _ _ hp => nomatch hp
  | stays _ _ hheading hsearch hmove ih =>
    obtain ⟨hvt, hsame⟩ := Heading.stays hsearch hmove
    refine ih.keep (((course_heading P _ _ _ _ _ _ _).ok hheading).trans hvt) fun g _ _ hp => ?_
    obtain rfl := hsame g _ _ hp
    exact ⟨_, _, rfl⟩
  | @moves k path f norm record u v w t h accepted progress _ _ hheading hsearch hmove ih =>
    have huv := (course_heading P _ _ _ _ _ _ _).ok hheading
    obtain ⟨hvw, hfound, rfl, hnext⟩ := Heading.moves hsearch hmove
    have hcourse : Course (Session.stage P) u (w.moved u.x f accepted) :=
      ((huv.trans hvw).coarser (congrArg Spot.toStage)).trans (Course.of_eq rfl rfl rfl)
    refine ⟨ih.course.trans hcourse, rfl, fun p hp => ?_, fun g norm' record' hp => ?_⟩
    · obtain rfl | hp := List.mem_cons.1 hp
      · have hsv := ih.course.trans (huv.coarser (congrArg Spot.toStage))
        exact hfound.earlier hsv.calls hvw.calls
      · exact (ih.evaluated p hp).later ih.course.calls hcourse.calls
    · rw [hnext g norm' record' hp]
      exact ⟨_, rfl⟩

/-! ## The residual at a position -/

section
variable {t u v w : Session α σ n}

/-- A point of an attempt that began in `s`, with its residual and the norm of that. -/
structure Standpoint (P : Problem α σ n) (s t : Session α σ n) (f : Vector α n) (norm : α) :
    Prop where
  course : Course (Session.stage P) s t
  evaluated : Evaluated s t t.x f
  norm : norm = scaledNorm f t.work.residualScale

theorem Standpoint.keep {P : Problem α σ n} {s t u : Session α σ n} {f : Vector α n} {norm : α}
    (h : Standpoint P s t f norm) (htu : Course (Session.footing P) t u) :
    Standpoint P s u f norm := by
  have hx : u.x = t.x := congrArg (fun p => p.x) htu.keeps
  have hscale : u.work.residualScale = t.work.residualScale :=
    congrArg Footing.residualScale htu.keeps
  refine ⟨h.course.trans (htu.coarser (congrArg fun p : Footing α n => p.toStage)), ?_, ?_⟩
  · rw [hx]
    exact h.evaluated.later h.course.calls htu.calls
  · rw [hscale]
    exact h.norm

theorem standpoint_start {f : Vector α n} (hf : evaluate P s.x s.cleared = .ok (.ok f) t) :
    Standpoint P s (t.normed f) f (scaledNorm f t.work.residualScale) := by
  obtain ⟨hcourse, hx⟩ := course_begin hf
  refine ⟨hcourse.trans (Course.of_eq rfl rfl rfl), ?_, rfl⟩
  change Evaluated s.cleared t t.x f
  rw [hx]
  exact evaluated_of_ok hf

/-- The norm that a step is searched with is that of the residual with the present scales. -/
theorem Standpoint.heading {tighten : Bool} {iteration : Nat} {f : Vector α n} {norm : α}
    {record : RunRecord α} {h : Heading α n} (hs : Standpoint P s u f norm)
    (hrun : AlgebraicLoop.heading P tol descent tighten iteration f norm record u =
      .ok (.inr h) v) : Standpoint P s v f h.norm := by
  obtain ⟨t, w, y, step, kind, ht, hw, hy, hv⟩ := heading_eq_ok hrun
  have hsw : Standpoint P s w f h.norm := by
    obtain ⟨huw, hnorm⟩ | ⟨huw, hnorm⟩ := tightenedNorm_cases hw ((course_prepareJacobian P _ _ _).ok ht)
    · rw [hnorm]
      exact hs.keep huw
    · have hx : w.x = u.x := congrArg Spot.x huw.keeps
      refine ⟨hs.course.trans (huw.coarser (congrArg Spot.toStage)), ?_, hnorm⟩
      rw [hx]
      exact hs.evaluated.later hs.course.calls huw.calls
  exact hsw.keep (((course_computeStep P _ _).ok hy).trans ((course_searchDirection P _ _ _ _ _).ok hv))

theorem Standpoint.searched {f : Vector α n} {norm : α} {h : Heading α n}
    {answer : Except FailureReason (Accepted α n)} {x : Vector α n} (hs : Standpoint P s v f norm)
    (hrun : h.search P tol x f v = .ok answer w) : Standpoint P s w f norm :=
  hs.keep (h.course_search hrun)

theorem Standpoint.moved {f x : Vector α n} {norm : α} {h : Heading α n} {a : Accepted α n}
    (hs : Standpoint P s v f norm) (hrun : h.search P tol x f v = .ok (.ok a) w) :
    Standpoint P s (w.moved x f a) a.f (scaledNorm a.f w.work.residualScale) where
  course := (hs.searched hrun).course.trans (Course.of_eq rfl rfl rfl)
  evaluated := (h.search_evaluated hrun).earlier hs.course.calls (h.course_search hrun).calls
  norm := rfl

end

/-- Where an attempt goes on, its norm is that of the residual there, with the scales it has. -/
theorem Walk.standpoint {k : Nat} {path : List (Waypoint α n)} {f : Vector α n} {norm : α}
    {record : RunRecord α} {u : Session α σ n}
    (h : Walk P tol descent s k path (.onward f norm record) u) : Standpoint P s u f norm := by
  generalize hprogress : (.onward f norm record : Progress α n) = progress at h
  induction h generalizing f norm record with
  | undefined _ | solved _ _ | exhausted _ _ | gaveUp _ _ _ => cases hprogress
  | start hf _ =>
    cases hprogress
    exact standpoint_start hf
  | stays _ _ hheading hsearch hmove ih =>
    have hstand := ((ih rfl).heading hheading).searched hsearch
    obtain ⟨_, ⟨rfl, _, rfl⟩ | ⟨⟨_, rfl⟩, _⟩⟩ := searchAndMove_stays hsearch hmove
    · cases hprogress
      exact hstand.keep (Course.of_eq rfl rfl rfl)
    · cases hprogress
  | moves _ _ hheading hsearch hmove ih =>
    have hstand := ((ih rfl).heading hheading).moved hsearch
    obtain ⟨rfl, _, hnext⟩ := searchAndMove_moves hsearch hmove
    obtain ⟨rfl, rfl⟩ := hnext _ _ _ hprogress.symm
    exact hstand

/-- The residual of an attempt is the one that was found at the point it is at. -/
theorem Walk.evaluated {k : Nat} {path : List (Waypoint α n)} {f : Vector α n} {norm : α}
    {record : RunRecord α} {u : Session α σ n}
    (h : Walk P tol descent s k path (.onward f norm record) u) : Evaluated s u u.x f :=
  h.standpoint.evaluated

/-! ## The attempts of a damped solve -/

/-- The solve by the damped method that begins in `s` starts an attempt: its tolerances, whether it
is one by steepest descent, and the session it starts in. -/
inductive Launch (P : Problem α σ n) (s : Session α σ n) :
    Tolerances α → Bool → Session α σ n → Prop
  | first {first : Bool} {u : Session α σ n} :
      openSolve P s = .ok first u →
      Launch P s (P.options.firstTolerances n) false
        { u with work := { u.work with firstAttempt := true, retrying := false } }
  | descent {first : Bool} {standing : Standing α} {u v : Session α σ n} :
      openSolve P s = .ok first u → firstAttempt P u = .ok standing v →
      (standing.attempt.failed && P.options.steepestDescentFallback) = true →
      Launch P s (P.options.firstTolerances n) true
        { v with notices := v.notices.push .descentRetry }
  | rescaled {first : Bool} {standing opening : Standing α} {u v w y : Session α σ n} :
      openSolve P s = .ok first u → firstAttempt P u = .ok standing v →
      tryDescent P standing v = .ok opening w →
      P.options.residualScaling ≠ .none → first = true ∨ opening.attempt.failed = true →
      updateResidualScales P { w with notices := opening.rescalingNotices w.notices } = .ok () y →
      Launch P s P.options.retryTolerances false
        { y with work := { y.work with retrying := true } }
  | nominal {first : Bool} {standing opening rescaled : Standing α} {u v w y : Session α σ n}
      {x : Vector α n} :
      openSolve P s = .ok first u → firstAttempt P u = .ok standing v →
      tryDescent P standing v = .ok opening w → tryRescaled P first opening w = .ok rescaled y →
      (rescaled.attempt.failed && P.options.nominalFallback) = true →
      nominalGuess? y.nominal y.lower y.upper P.options.enforceBounds = some x →
      Launch P s (P.options.firstTolerances n) false
        { y with
          x
          work := { y.work with jacobianAtPoint := false }
          notices := y.notices.push .nominalRetry }

/-! ## Full steps -/

/-- The record of the steps so far. -/
def strideRecord : Attempt α ⊕ Vector α n × RunRecord α → RunRecord α
  | .inl attempt => attempt.record
  | .inr (_, record) => record

/-- The session after a full step from `x` with residual `f` to `y`. -/
def Session.strode (s : Session α σ n) (x f y : Vector α n) : Session α σ n :=
  { s with
    x := y
    counters.iterations := s.counters.iterations + 1
    work := { s.work with history := some ⟨y.zipWith (· - ·) x, f⟩, jacobianAtPoint := false } }

/-- A full step in iteration `k`, from `s` where the residual is `f` to `t` where it is `g`, as it is
put on record. -/
structure FullStep (P : Problem α σ n) (tol : Tolerances α) (k : Nat) (f g : Vector α n)
    (it : IterationRecord α) (s t : Session α σ n) : Prop where
  numbered : it.iteration = k
  taken : ∃ step y u v w, prepareJacobian P k s.x f s = .ok (.ok it.freshJacobian) u ∧
    computeStep P f tol.step u = .ok (some (step, it.stepKind)) v ∧
    evaluate P y v = .ok (.ok g) w ∧ t = w.strode s.x f y

theorem FullStep.found {k : Nat} {f g : Vector α n} {it : IterationRecord α} {t : Session α σ n}
    (h : FullStep P tol k f g it s t) : Trail s t ∧ Evaluated s t t.x g := by
  obtain ⟨_, y, u, v, w, hu, hv, hw, rfl⟩ := h.taken
  have hsv : Trail s v := ((course_prepareJacobian P ..).ok hu).trail.trans
    ((course_computeStep P ..).ok hv).trail
  have hvw := ((course_evaluate P _).ok hw).trail
  have hmoved : Trail w (w.strode s.x f y) := Course.of_eq rfl rfl rfl
  exact ⟨(hsv.trans hvw).trans hmoved, ((evaluated_of_ok hw).earlier hsv.calls hvw.calls).later
    (hsv.trans hvw).calls hmoved.calls⟩

theorem verdictAfterFullStep_record {o : Options α} {tol : Tolerances α} {record : RunRecord α}
    {attempt : Attempt α} (h : verdictAfterFullStep o tol record = some attempt) :
    attempt.record = record := by
  unfold verdictAfterFullStep at h
  split at h
  · cases h
    rfl
  · split at h
    · split at h
      all_goals
        cases h
        rfl
    · cases h

/-- An iteration without line search gives up where it is, or takes a full step. -/
theorem iterateUndamped_cases {k : Nat} {f : Vector α n} {record : RunRecord α} {t : Session α σ n}
    {progress : Attempt α ⊕ Vector α n × RunRecord α}
    (h : iterateUndamped P tol k f record s = .ok progress t) :
    (∃ reason, progress = .inl (record.stopped reason) ∧ Course (Session.footing P) s t) ∨
    ∃ it g, FullStep P tol k f g it s t ∧ strideRecord progress = record.push it ∧
      ∀ g' record', progress = .inr (g', record') → g' = g := by
  unfold iterateUndamped at h
  rw [get_bind_apply] at h
  obtain ⟨answer, u, hu, h⟩ := bind_eq_ok.1 h
  have hsu := (course_prepareJacobian P _ _ _).ok hu
  cases answer with
  | error mishap =>
    cases h
    exact .inl ⟨_, rfl, hsu⟩
  | ok fresh =>
    obtain ⟨found, v, hv, h⟩ := bind_eq_ok.1 h
    have hsv := hsu.trans ((course_computeStep P _ _).ok hv)
    cases found with
    | none =>
      cases h
      exact .inl ⟨_, rfl, hsv⟩
    | some found =>
      dsimp only at h
      rw [get_bind_apply] at h
      obtain ⟨answer, w, hw, h⟩ := bind_eq_ok.1 h
      cases answer with
      | error mishap =>
        cases h
        exact .inl ⟨_, rfl, hsv.trans ((course_evaluate P _).ok hw)⟩
      | ok g =>
        obtain ⟨_, z, hz, h⟩ := bind_eq_ok.1 h
        cases hz
        generalize hverdict : verdictAfterFullStep P.options tol _ = verdict at h
        cases verdict with
        | none =>
          cases h
          refine .inr ⟨_, g, ?_, rfl, fun g' record' hp => ?_⟩
          · exact ⟨rfl, found.1, _, u, v, w, hu, hv, hw, rfl⟩
          · cases hp
            rfl
        | some attempt =>
          cases h
          refine .inr ⟨_, g, ?_, verdictAfterFullStep_record hverdict, fun _ _ hp => nomatch hp⟩
          exact ⟨rfl, found.1, _, u, v, w, hu, hv, hw, rfl⟩

/-! ## The positions of an undamped attempt -/

/-- The undamped attempt from `s` comes to a session: after how many steps, and whether it is over
there or goes on from a residual. -/
inductive Strides (P : Problem α σ n) (tol : Tolerances α) (s : Session α σ n) :
    Nat → Attempt α ⊕ Vector α n × RunRecord α → Session α σ n → Prop
  | undefined {mishap : Mishap} {t : Session α σ n} :
      evaluate P s.x s = .ok (.error mishap) t →
      Strides P tol s 0 (.inl (RunRecord.empty.stopped .initialEvaluation)) t
  | solved {f : Vector α n} {t : Session α σ n} :
      evaluate P s.x s = .ok (.ok f) t → scaledNorm f t.work.residualScale ≤ tol.function →
      Strides P tol s 0 (.inl (t.blankRecord f).converged) t
  | start {f : Vector α n} {t : Session α σ n} :
      evaluate P s.x s = .ok (.ok f) t → ¬ scaledNorm f t.work.residualScale ≤ tol.function →
      Strides P tol s 0 (.inr (f, t.blankRecord f)) t
  | exhausted {k : Nat} {f : Vector α n} {record : RunRecord α} {u : Session α σ n} :
      Strides P tol s k (.inr (f, record)) u → P.options.maxIterations ≤ k →
      Strides P tol s k (.inl (record.stopped .maxIterations)) u
  | next {k : Nat} {f : Vector α n} {record : RunRecord α} {u v : Session α σ n}
      {progress : Attempt α ⊕ Vector α n × RunRecord α} :
      Strides P tol s k (.inr (f, record)) u → k < P.options.maxIterations →
      iterateUndamped P tol (k + 1) f record u = .ok progress v →
      Strides P tol s (k + 1) progress v

/-- The ends of the steps that are left at a position. -/
theorem Strides.loop {k : Nat} {f : Vector α n} {record : RunRecord α} {u : Session α σ n}
    (budget : Nat) (h : Strides P tol s k (.inr (f, record)) u)
    (hbudget : k + budget = P.options.maxIterations) :
    After (loopUndamped P tol budget (k + 1) f record) u
      (fun attempt t => ∃ k, Strides P tol s k (.inl attempt) t)
      fun halt t => ∃ k f record v, Strides P tol s k (.inr (f, record)) v ∧
        k < P.options.maxIterations ∧ iterateUndamped P tol (k + 1) f record v = .error halt t := by
  induction budget generalizing k f record u with
  | zero => exact ⟨k, h.exhausted (Nat.le_of_eq hbudget.symm)⟩
  | succ budget ih =>
    have hk : k < P.options.maxIterations := by omega
    change After (iterateUndamped P tol (k + 1) f record >>= _) u _ _
    rw [after_bind]
    refine .intro (fun progress t hrun => ?_) fun _ _ hrun => ⟨k, f, record, u, h, hk, hrun⟩
    have hnext := h.next hk hrun
    cases progress with
    | inl attempt => exact ⟨k + 1, hnext⟩
    | inr _ => exact ih hnext (by omega)

/-- An undamped attempt ends at one of its positions, or halts on the way to the next one. -/
theorem runUndamped_after (P : Problem α σ n) (tol : Tolerances α) (s : Session α σ n) :
    After (runUndamped P tol) s (fun attempt t => ∃ k, Strides P tol s k (.inl attempt) t)
      fun halt t => evaluate P s.x s = .error halt t ∨ ∃ k f record v,
        Strides P tol s k (.inr (f, record)) v ∧ k < P.options.maxIterations ∧
        iterateUndamped P tol (k + 1) f record v = .error halt t := by
  change After (evaluate P s.x >>= _) s _ _
  rw [after_bind]
  refine .intro (fun answer t hf => ?_) fun _ _ hf => .inl hf
  cases answer with
  | error mishap => exact ⟨0, .undefined hf⟩
  | ok f =>
    change After (if scaledNorm f t.work.residualScale ≤ tol.function then
      pure (t.blankRecord f).converged else loopUndamped P tol P.options.maxIterations 1 f
        (t.blankRecord f)) t _ _
    split
    · next hle => exact ⟨0, .solved hf hle⟩
    · next hle =>
      exact ((Strides.start hf hle).loop _ (Nat.zero_add _)).mono (fun _ _ _ h => h)
        fun _ _ _ h => .inr h

/-- The residual of an undamped attempt is the one that was found at the point it is at. -/
theorem Strides.evaluated {k : Nat} {f : Vector α n} {record : RunRecord α} {u : Session α σ n}
    (h : Strides P tol s k (.inr (f, record)) u) : Trail s u ∧ Evaluated s u u.x f := by
  generalize hprogress : (Sum.inr (f, record) : Attempt α ⊕ Vector α n × RunRecord α) = progress at h
  induction h generalizing f record with
  | undefined _ | solved _ _ | exhausted _ _ _ => cases hprogress
  | @start g t hf _ =>
    cases hprogress
    have hst := (course_evaluate P s.x).ok hf
    have hx : t.x = s.x := hst.point
    rw [hx]
    exact ⟨hst.trail, evaluated_of_ok hf⟩
  | next _ _ hrun ih =>
    obtain ⟨hsu, _⟩ := ih rfl
    obtain ⟨_, rfl, _⟩ | ⟨_, g, hstep, _, hnext⟩ := iterateUndamped_cases hrun
    · cases hprogress
    · obtain ⟨huv, hg⟩ := hstep.found
      rw [hnext f record hprogress.symm]
      exact ⟨hsu.trans huv, hg.earlier hsu.calls huv.calls⟩

/-! ## Direct steps -/

theorem verdictOnDirect_record (tol : Tolerances α) (norm : α) (clamped : Bool)
    (record : RunRecord α) : (verdictOnDirect tol norm clamped record).record = record := by
  unfold verdictOnDirect
  split
  · rfl
  · rfl

/-- A direct solve gives up where it is, or puts its one step on record with the age of the
Jacobian. -/
theorem stepDirectly_cases {x f : Vector α n} {norm : α} {usable : Bool} {attempt : Attempt α}
    {t : Session α σ n} (h : stepDirectly P tol x f norm usable s = .ok attempt t) :
    attempt.record = { RunRecord.empty with residualNorm := norm } ∧
        Course (Session.footing P) s t ∨
      ∃ y g u it, evaluate P y s = .ok (.ok g) u ∧
        t.counters.iterations = u.counters.iterations + 1 ∧
        attempt.record = { RunRecord.empty with residualNorm := norm }.push it ∧
        it.iteration = 1 ∧ it.freshJacobian = decide (u.work.jacobianAge = 0) := by
  unfold stepDirectly at h
  rw [get_bind_apply] at h
  dsimp only at h
  generalize (if usable = true then directStep? s.work f else none) = found at h
  cases found with
  | none =>
    cases h
    exact .inl ⟨rfl, Course.refl _ s⟩
  | some found =>
    unfold moveDirectly at h
    dsimp only at h
    rw [get_bind_apply] at h
    obtain ⟨answer, u, hu, h⟩ := bind_eq_ok.1 h
    cases answer with
    | error mishap =>
      cases h
      exact .inl ⟨rfl, (course_evaluate P _).ok hu⟩
    | ok g =>
      cases h
      exact .inr ⟨_, g, u, _, hu, rfl, verdictOnDirect_record _ _ _ _, rfl, rfl⟩

/-! ## Where the Jacobian is prepared -/

/-- The solve that begins in `s` comes to prepare the Jacobian, for an iteration of the given number
and at a point with the given residual. -/
inductive Turn (P : Problem α σ n) (s : Session α σ n) :
    Nat → Vector α n → Session α σ n → Prop
  | damped {tol : Tolerances α} {descent : Bool} {t u : Session α σ n} {k : Nat}
      {path : List (Waypoint α n)} {f : Vector α n} {norm : α} {record : RunRecord α} :
      P.options.method = .damped → Launch P s tol descent t →
      Walk P tol descent t k path (.onward f norm record) u → k < P.options.maxIterations →
      Turn P s (k + 1) f u
  | undamped {first : Bool} {t u : Session α σ n} {k : Nat} {f : Vector α n}
      {record : RunRecord α} :
      P.options.method = .undamped → setUp P s = .ok first t →
      Strides P (P.options.plainTolerances n) { t with phase := .iterating } k
        (.inr (f, record)) u →
      k < P.options.maxIterations → Turn P s (k + 1) f u
  | direct {first : Bool} {t u : Session α σ n} {f : Vector α n} :
      P.options.method = .direct → setUp P s = .ok first t →
      evaluate P t.x { t with phase := .iterating } = .ok (.ok f) u → Turn P s 1 f u

/-! ## Positions that are computed -/

omit [Scalar α] in
/-- Does the action come to an end that passes a test? -/
def comesTo {β : Type} (a : Action α σ n β) (s : Session α σ n)
    (test : β → Session α σ n → Bool) : Bool :=
  match a s with
  | .ok v t => test v t
  | .error _ _ => false

omit [Scalar α] in
theorem exists_of_comesTo {β : Type} {a : Action α σ n β} {s : Session α σ n}
    {test : β → Session α σ n → Bool} (h : comesTo a s test = true) :
    ∃ v t, a s = .ok v t ∧ test v t = true := by
  unfold comesTo at h
  split at h
  · next v t hrun => exact ⟨v, t, hrun, h⟩
  · cases h

/-- The way of a damped solve to its first iteration; `none` when it comes to none. -/
def firstTurn (P : Problem α σ n) : Action α σ n (Option (Vector α n)) := do
  discard (openSolve P)
  modify fun s =>
    { s with work := { s.work with firstAttempt := true, retrying := false } }
  modify Session.cleared
  match ← evaluate P (← get).x with
  | .error _ => pure none
  | .ok f => do
    let norm := scaledNorm f (← get).work.residualScale
    modify fun s => s.normed f
    if norm ≤ 0.01 * (P.options.firstTolerances n).function ∨ P.options.maxIterations = 0 then
      pure none
    else pure (some f)

theorem turn_of_firstTurn {P : Problem α σ n} {s u : Session α σ n} {f : Vector α n}
    (hmethod : P.options.method = .damped) (h : firstTurn P s = .ok (some f) u) :
    Turn P s 1 f u := by
  unfold firstTurn at h
  obtain ⟨_, v, hopen, h⟩ := bind_eq_ok.1 h
  obtain ⟨first, w, hopen, hv⟩ := bind_eq_ok.1 hopen
  cases hv
  rw [modify_bind_apply, modify_bind_apply, get_bind_apply] at h
  obtain ⟨answer, t, ht, h⟩ := bind_eq_ok.1 h
  cases answer with
  | error mishap => cases h
  | ok g =>
    dsimp only at h
    rw [get_bind_apply, modify_bind_apply] at h
    split at h
    · cases h
    · next hgoes =>
      obtain ⟨hnorm, hbudget⟩ := not_or.1 hgoes
      cases h
      exact .damped hmethod (.first hopen) (.start ht hnorm) (Nat.pos_of_ne_zero hbudget)

end

end AlgebraicLoop
