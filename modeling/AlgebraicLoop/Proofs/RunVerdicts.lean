import AlgebraicLoop.Proofs.ReportedNorms
import AlgebraicLoop.Proofs.RoundedQuotients

/-!
# The verdict on an attempt

An attempt of the damped method ends with a verdict. One that met its exit criterion leaves a small
residual, or has come to steps that are too short; one that stopped short does so for the reason it
gives.

* `Trials`, `Heading.Stalls`: a search that gives up, and the part of its step that it would have
  tried next;
* `Underway`: what is known of an attempt that goes on;
* `LastStep`, `StalledSearch`: the ends of an attempt at its last step;
* `runDamped_justified`: what each verdict says.
-/

namespace AlgebraicLoop
set_option autoImplicit false

section
variable {α σ : Type} [Scalar α] {n : Nat}

/-! ## A search that gives up -/

/-- A search that has `budget` trials left and is about to try the part `damping` of its step comes
to have fewer of them left, and to another part. -/
inductive Trials (P : Problem α σ n) (x step scale : Vector α n) (start slope leastDamping : α) :
    Nat → α → Session α σ n → Nat → α → Session α σ n → Prop
  | here {budget : Nat} {damping : α} {s : Session α σ n} :
      Trials P x step scale start slope leastDamping budget damping s budget damping s
  | undefined {budget budget' : Nat} {damping damping' : α} {mishap : Mishap}
      {s u t : Session α σ n} :
      ¬ damping < leastDamping → evaluate P (along x step damping) s = .ok (.error mishap) u →
      Trials P x step scale start slope leastDamping budget (damping * 0.5) u budget' damping' t →
      Trials P x step scale start slope leastDamping (budget + 1) damping s budget' damping' t
  | rejected {budget budget' : Nat} {damping damping' next : α} {g : Vector α n}
      {s u t : Session α σ n} :
      ¬ damping < leastDamping → evaluate P (along x step damping) s = .ok (.ok g) u →
      decreasesEnough start (merit g scale) slope damping = false →
      shorten? start (merit g scale) slope damping = some next →
      Trials P x step scale start slope leastDamping budget next u budget' damping' t →
      Trials P x step scale start slope leastDamping (budget + 1) damping s budget' damping' t

section
variable {P : Problem α σ n} {x step scale : Vector α n} {start slope leastDamping damping : α}
  {budget : Nat} {s t : Session α σ n}

/-- A search that finds no point has used up its trials, or comes to a part that is too small. -/
theorem backtrack_failed {reason : FailureReason}
    (h : backtrack P x step scale start slope leastDamping budget damping s =
      .ok (.error reason) t) :
    reason = .lineSearch ∨ reason = .stepTooSmall ∧ ∃ budget' damping',
      Trials P x step scale start slope leastDamping budget damping s (budget' + 1) damping' t ∧
        damping' < leastDamping := by
  induction budget generalizing damping s with
  | zero =>
    cases h
    exact .inl rfl
  | succ budget ih =>
    unfold backtrack at h
    by_cases hsmall : damping < leastDamping
    · rw [if_pos hsmall] at h
      cases h
      exact .inr ⟨rfl, budget, damping, .here, hsmall⟩
    · rw [if_neg hsmall] at h
      obtain ⟨answer, u, hu, h⟩ := bind_eq_ok.1 h
      cases answer with
      | error mishap =>
        refine (ih h).imp_right fun hlater => ?_
        obtain ⟨hreason, budget', damping', htrials, hlt⟩ := hlater
        exact ⟨hreason, budget', damping', .undefined hsmall hu htrials, hlt⟩
      | ok g =>
        dsimp only at h
        cases henough : decreasesEnough start (merit g scale) slope damping with
        | true =>
          rw [henough] at h
          cases h
        | false =>
          rw [henough, if_neg Bool.false_ne_true] at h
          cases hnext : shorten? start (merit g scale) slope damping with
          | none =>
            rw [hnext] at h
            cases h
          | some next =>
            rw [hnext] at h
            refine (ih h).imp_right fun hlater => ?_
            obtain ⟨hreason, budget', damping', htrials, hlt⟩ := hlater
            exact ⟨hreason, budget', damping', .rejected hsmall hu henough hnext htrials, hlt⟩

theorem Trials.nonneg [LawfulScalar α] {budget' : Nat} {damping' : α}
    (hslope : slope < 0 → isFinite slope = true)
    (h : Trials P x step scale start slope leastDamping budget damping s budget' damping' t)
    (hd : 0 ≤ damping) : 0 ≤ damping' := by
  induction h with
  | here => exact hd
  | undefined _ _ _ ih => exact ih (LawfulScalar.half_nonneg _ hd)
  | rejected _ _ _ hnext _ ih =>
    obtain ⟨next, heq, hpos⟩ := LawfulScalar.shorten?_isSome hslope hd
    obtain rfl := Option.some.inj (hnext.symm.trans heq)
    exact ih hpos

end

namespace Heading
variable (h : Heading α n) (P : Problem α σ n) (tol : Tolerances α) (x f : Vector α n)
  (s t : Session α σ n)

/-- The search along the step stands in `t`, about to try the part `damping`. -/
def Stalls (damping : α) : Prop :=
  ∃ budget, Trials P x h.step s.work.residualScale (merit f s.work.residualScale)
    (downhillSlope s.work.jacobian f s.work.residualScale h.step) (tol.step / h.length x s)
    (P.options.maxBacktracks + 1) 1 (h.facing s) (budget + 1) damping t

theorem search_eq : h.search P tol x f s =
    if (h.length x s == 0) = true then .ok (.error .stepTooSmall) (h.facing s)
    else backtrack P x h.step s.work.residualScale (merit f s.work.residualScale)
      (downhillSlope s.work.jacobian f s.work.residualScale h.step) (tol.step / h.length x s)
      (P.options.maxBacktracks + 1) 1 (h.facing s) := by
  unfold search lineSearch length
  rw [get_bind_apply]
  split <;> rfl

variable {h P tol x f s t}

/-- What a search without a point was about to try when it gave up is no longer than the step
tolerance. -/
theorem search_failed [RoundedScalar α] (hstep : 0 ≤ tol.step) {reason : FailureReason}
    (hrun : h.search P tol x f s = .ok (.error reason) t) :
    reason = .lineSearch ∨ reason = .stepTooSmall ∧
      ∃ damping, h.Stalls P tol x f s t damping ∧ damping * h.length x s ≤ tol.step := by
  have hlength : 0 ≤ h.length x s := LawfulScalar.zero_le_maxNorm _
  rw [search_eq] at hrun
  split at hrun
  · next hzero =>
    -- Nothing is tried along a step without length; its full length would come next.
    cases hrun
    refine .inr ⟨rfl, 1, ⟨_, .here⟩, ?_⟩
    exact LawfulScalar.le_trans _ _ _ (RoundedScalar.one_mul_zero _ hzero) hstep
  · refine (backtrack_failed hrun).imp_right fun ⟨hreason, budget, damping, htrials, hlt⟩ => ?_
    have hnonneg : 0 ≤ damping :=
      htrials.nonneg (LawfulScalar.downhillSlope_finite _ _ _ _) LawfulScalar.zero_le_one
    exact ⟨hreason, damping, ⟨budget, htrials⟩,
      RoundedScalar.mul_le_of_lt_div _ _ _ hnonneg hlength hstep hlt⟩

end Heading

/-! ## An attempt that goes on -/

variable {P : Problem α σ n} {tol : Tolerances α} {descent : Bool} {s t u v w : Session α σ n}

/-- The attempt from `s` came past the test at its starting point. -/
def Started (P : Problem α σ n) (tol : Tolerances α) (s : Session α σ n) : Prop :=
  ∃ f t, evaluate P s.x s.cleared = .ok (.ok f) t ∧
    ¬ scaledNorm f t.work.residualScale ≤ 0.01 * tol.function

/-- None of the steps on record met an exit test. -/
def RunRecord.Unmet (record : RunRecord α) (tol : Tolerances α) : Prop :=
  ∀ it ∈ record.trace.toList, ¬ it.residualNorm ≤ tol.function ∧ ¬ it.stepNorm ≤ tol.step

/-- What is known of the attempt from `s` when it goes on after `k` iterations: no exit test was met
so far, and each point after the first has its step on record. -/
structure Underway (P : Problem α σ n) (tol : Tolerances α) (s : Session α σ n) (k : Nat)
    (path : List (Waypoint α n)) (f : Vector α n) (norm : α) (record : RunRecord α)
    (u : Session α σ n) : Prop where
  standpoint : Standpoint P s u f norm
  started : Started P tol s
  unmet : record.Unmet tol
  recorded : path.length = record.trace.size + 1
  budget : k ≤ P.options.maxIterations

theorem RunRecord.Unmet.push {record : RunRecord α} (h : record.Unmet tol) {it : IterationRecord α}
    (hnorm : ¬ it.residualNorm ≤ tol.function) (hstep : ¬ it.stepNorm ≤ tol.step) :
    (record.push it).Unmet tol := by
  intro it' hit'
  rw [RunRecord.push, Array.toList_push] at hit'
  obtain hit' | hit' := List.mem_append.1 hit'
  · exact h it' hit'
  · obtain rfl := List.mem_singleton.1 hit'
    exact ⟨hnorm, hstep⟩

/-- A step after which the attempt goes on has met no exit test. -/
theorem verdictAfterStep_none {o : Options α} {norm stepNorm : α} {record : RunRecord α}
    (h : verdictAfterStep o tol norm stepNorm record = none) :
    ¬ norm ≤ tol.function ∧ ¬ stepNorm ≤ tol.step := by
  unfold verdictAfterStep at h
  split at h
  · cases h
  · next hnorm =>
    split at h
    · split at h <;> cases h
    · next hstep => exact ⟨hnorm, hstep⟩

theorem Walk.underway {k : Nat} {path : List (Waypoint α n)} {progress : Progress α n}
    (h : Walk P tol descent s k path progress u) : ∀ f norm record,
      progress = .onward f norm record → Underway P tol s k path f norm record u := by
  induction h with
  | undefined _ | solved _ _ | exhausted _ _ | gaveUp _ _ _ => nofun
  | @start f t hf hnorm =>
    rintro _ _ _ ⟨⟩
    exact ⟨standpoint_start hf, ⟨f, t, hf, hnorm⟩, nofun, rfl, Nat.zero_le _⟩
  | @stays k path f norm record u v w t h reason progress hwalk hk hheading hsearch hmove ih =>
    rintro f' norm' record' rfl
    obtain ⟨_, hstarted, hunmet, hrecorded, _⟩ := ih f norm record rfl
    obtain rfl : record' = record := (searchAndMove_stays hsearch hmove).1
    exact ⟨(hwalk.stays hk hheading hsearch hmove).standpoint, hstarted, hunmet, hrecorded, hk⟩
  | @moves k path f norm record u v w t h a progress hwalk hk hheading hsearch hmove ih =>
    rintro f' norm' record' rfl
    obtain ⟨_, hstarted, hunmet, hrecorded, _⟩ := ih f norm record rfl
    have hstand := (hwalk.moves hk hheading hsearch hmove).standpoint
    rw [searchAndMove_found hsearch] at hmove
    cases hverdict : verdictAfterStep P.options tol (scaledNorm a.f w.work.residualScale)
        (a.damping * h.length u.x v) (record.push (h.stride (k + 1) u.x v w a)) with
    | some attempt =>
      rw [hverdict] at hmove
      cases hmove
    | none =>
      rw [hverdict] at hmove
      cases hmove
      obtain ⟨hnorm, hstep⟩ := verdictAfterStep_none hverdict
      refine ⟨hstand, hstarted, hunmet.push hnorm hstep, ?_, hk⟩
      rw [List.length_cons, hrecorded, RunRecord.push, Array.size_push]

/-! ## The ends of an attempt -/

section
variable (P : Problem α σ n) (tol : Tolerances α) (descent : Bool) (s t : Session α σ n)

/-- In iteration `k + 1` the attempt from `s` searches along the step of `h`, from the point of `u`,
where the residual is `f`; the search begins in `v`. -/
structure Searches (k : Nat) (f : Vector α n) (h : Heading α n) (u v : Session α σ n) : Prop where
  position : ∃ path norm record, Walk P tol descent s k path (.onward f norm record) u ∧
    heading P tol descent (tightensScales P.options s.work) (k + 1) f norm record u =
      .ok (.inr h) v
  budget : k < P.options.maxIterations

/-- The attempt from `s` ends in `t` with a step that it accepted, of the given scaled length. -/
def LastStep (stepNorm : α) : Prop :=
  ∃ k f h u v w a, Searches P tol descent s k f h u v ∧ h.search P tol u.x f v = .ok (.ok a) w ∧
    t = w.moved u.x f a ∧ stepNorm = a.damping * h.length u.x v

/-- The attempt from `s` ends in `t` with a search along a step from a fresh Jacobian that finds no
point. -/
def FruitlessSearch (reason : FailureReason) : Prop :=
  ∃ k f h u v, Searches P tol descent s k f h u v ∧ h.fresh = true ∧
    h.search P tol u.x f v = .ok (.error reason) t

/-- Such a search gave up when it was about to try a part that is no longer than the tolerance. -/
def StalledSearch : Prop :=
  ∃ k f h u v damping, Searches P tol descent s k f h u v ∧ h.fresh = true ∧
    h.search P tol u.x f v = .ok (.error .stepTooSmall) t ∧ h.Stalls P tol u.x f v t damping ∧
      damping * h.length u.x v ≤ tol.step

/-- What the verdict on an attempt from `s` to `t` says. -/
structure Warranted (attempt : Attempt α) : Prop where
  /-- An attempt that met its exit criterion. -/
  converged : attempt.failure = none → ∃ f, Evaluated s t t.x f ∧
    (scaledNorm f t.work.residualScale ≤ larger tol.function P.options.tolerance ∨
      P.options.exitCriterion = .step ∧
        (LastStep P tol descent s t attempt.record.stepNorm ∧ attempt.record.stepNorm ≤ tol.step ∨
          StalledSearch P tol descent s t))
  /-- An attempt that used up its iterations. -/
  exhausted : attempt.failure = some .maxIterations → Started P tol s ∧ attempt.record.Unmet tol ∧
    ∃ path f norm, path.length = attempt.record.trace.size + 1 ∧
      Walk P tol descent s P.options.maxIterations path (.onward f norm attempt.record) t
  /-- An attempt that found no better point, or only a step too short. -/
  stuck : ∀ reason, attempt.failure = some reason → reason = .lineSearch ∨ reason = .stepTooSmall →
    ∃ f, Evaluated s t t.x f ∧ ¬ scaledNorm f t.work.residualScale ≤ P.options.tolerance ∧
      (isNaN P.options.tolerance = false →
        P.options.tolerance < scaledNorm f t.work.residualScale) ∧
      (FruitlessSearch P tol descent s t reason ∨
        LastStep P tol descent s t attempt.record.stepNorm ∧ attempt.record.stepNorm ≤ tol.step)

end

theorem Warranted.of_reason (record : RunRecord α) {reason : FailureReason}
    (h : reason ≠ .maxIterations) (h' : reason ≠ .lineSearch) (h'' : reason ≠ .stepTooSmall) :
    Warranted P tol descent s t (record.stopped reason) where
  converged := nofun
  exhausted hmax := absurd (Option.some.inj hmax) h
  stuck reason' hreason hstuck := by
    obtain rfl := Option.some.inj hreason
    exact absurd hstuck (not_or.2 ⟨h', h''⟩)

theorem Warranted.of_converged [LawfulScalar α] {record : RunRecord α} {f : Vector α n} {norm : α}
    (hs : Standpoint P s t f norm)
    (h : norm ≤ tol.function ∨ norm ≤ P.options.tolerance ∨ P.options.exitCriterion = .step ∧
      (LastStep P tol descent s t record.stepNorm ∧ record.stepNorm ≤ tol.step ∨
        StalledSearch P tol descent s t)) : Warranted P tol descent s t record.converged where
  converged _ := by
    refine ⟨f, hs.evaluated, ?_⟩
    rw [← hs.norm]
    obtain h | h | h := h
    · exact .inl (LawfulScalar.le_larger_left h)
    · exact .inl (LawfulScalar.le_larger_right h)
    · exact .inr h
  exhausted := nofun
  stuck := nofun

theorem Warranted.of_stuck [LawfulScalar α] {record : RunRecord α} {reason : FailureReason}
    {f : Vector α n} {norm : α} (hs : Standpoint P s t f norm) (hne : reason ≠ .maxIterations)
    (hlarge : ¬ norm ≤ P.options.tolerance)
    (h : FruitlessSearch P tol descent s t reason ∨
      LastStep P tol descent s t record.stepNorm ∧ record.stepNorm ≤ tol.step) :
    Warranted P tol descent s t (record.stopped reason) where
  converged := nofun
  exhausted hmax := absurd (Option.some.inj hmax) hne
  stuck reason' hreason _ := by
    obtain rfl := Option.some.inj hreason
    have hnorm : norm = scaledNorm f t.work.residualScale := hs.norm
    have hreal : isNaN norm = false := by
      rw [hnorm]
      exact (LawfulScalar.real_of_le _ _ (LawfulScalar.zero_le_maxNorm _)).2
    rw [hnorm] at hlarge hreal
    refine ⟨f, hs.evaluated, hlarge, fun htol => ?_, h⟩
    have hle := (LawfulScalar.le_total _ _ hreal htol).resolve_left hlarge
    exact (LawfulScalar.lt_iff _ _).2 ⟨hle, hlarge⟩

/-- The verdict on an attempt that ends with a step. -/
theorem warranted_of_verdict [LawfulScalar α] {record : RunRecord α} {attempt : Attempt α}
    {f : Vector α n} {norm : α} (hs : Standpoint P s t f norm)
    (hlast : LastStep P tol descent s t record.stepNorm)
    (h : verdictAfterStep P.options tol norm record.stepNorm record = some attempt) :
    Warranted P tol descent s t attempt := by
  unfold verdictAfterStep at h
  split at h
  · next hsmall =>
    cases h
    exact .of_converged hs (.inl hsmall)
  · split at h
    · next hshort =>
      split at h
      · next hexit =>
        cases h
        refine .of_converged hs (.inr ?_)
        exact hexit.symm.imp_right fun hexit => ⟨hexit, .inl ⟨hlast, hshort⟩⟩
      · next hexit =>
        cases h
        exact .of_stuck hs nofun (not_or.1 hexit).2 (.inr ⟨hlast, hshort⟩)
    · cases h

/-- The verdict on an attempt that ends with a search without a point. -/
theorem warranted_of_failure [RoundedScalar α] (hstep : 0 ≤ tol.step) {k : Nat} {f : Vector α n}
    {h : Heading α n} {reason : FailureReason} (record : RunRecord α)
    (hs : Standpoint P s v f h.norm) (hsearches : Searches P tol descent s k f h u v)
    (hfresh : h.fresh = true) (hsearch : h.search P tol u.x f v = .ok (.error reason) w) :
    Warranted P tol descent s w
      (if settlesFor P.options reason h.norm = true then record.converged
        else record.stopped reason) := by
  have hw := hs.searched hsearch
  have hreason := Heading.search_failed hstep hsearch
  split
  · next hsettles =>
    simp only [settlesFor, Bool.or_eq_true, Bool.and_eq_true, decide_eq_true_eq] at hsettles
    refine .of_converged hw (.inr (hsettles.symm.imp_right fun hsettled => ⟨hsettled.2, .inr ?_⟩))
    obtain rfl : reason = .stepTooSmall := hsettled.1
    obtain hline | ⟨_, damping, hstalls, hshort⟩ := hreason
    · cases hline
    · exact ⟨k, f, h, u, v, damping, hsearches, hfresh, hsearch, hstalls, hshort⟩
  · next hsettles =>
    simp only [settlesFor, Bool.or_eq_true, Bool.and_eq_true, decide_eq_true_eq, not_or] at hsettles
    refine .of_stuck hw ?_ hsettles.2 (.inl ⟨k, f, h, u, v, hsearches, hfresh, hsearch⟩)
    intro hexhausted
    obtain rfl | ⟨rfl, _⟩ := hreason
    · cases hexhausted
    · cases hexhausted

/-- Every verdict on an attempt of the damped method is justified by the residual at the point that
it leaves, with the scales that it leaves, or by its last step. -/
theorem runDamped_justified [RoundedScalar α] (hfunction : 0 ≤ tol.function)
    (hstep : 0 ≤ tol.step) {attempt : Attempt α}
    (hrun : runDamped P tol descent s = .ok attempt t) : Warranted P tol descent s t attempt := by
  obtain ⟨k, path, hwalk⟩ := runDamped_eq_ok.1 hrun
  cases hwalk with
  | undefined _ => exact .of_reason _ nofun nofun nofun
  | solved hf hle =>
    refine .of_converged (standpoint_start hf) (.inl ?_)
    exact LawfulScalar.le_trans _ _ _ hle (RoundedScalar.hundredth_le _ hfunction)
  | exhausted hwalk hk =>
    obtain ⟨_, hstarted, hunmet, hrecorded, hbudget⟩ := hwalk.underway _ _ _ rfl
    obtain rfl := Nat.le_antisymm hbudget hk
    exact ⟨nofun, fun _ => ⟨hstarted, hunmet, path, _, _, hrecorded, hwalk⟩, fun _ h hstuck => by
      obtain rfl := Option.some.inj h
      cases hstuck <;> contradiction⟩
  | gaveUp _ _ hheading =>
    obtain rfl | rfl := heading_stopped hheading
    · exact .of_reason _ nofun nofun nofun
    · exact .of_reason _ nofun nofun nofun
  | @stays k path f norm record u v w _ h reason _ hwalk hk hheading hsearch hmove =>
    have hstand := (hwalk.underway _ _ _ rfl).standpoint.heading hheading
    rw [searchAndMove_failed hsearch] at hmove
    split at hmove
    · cases hmove
    · next hfresh =>
      have hfailed := warranted_of_failure hstep record hstand ⟨⟨_, _, _, hwalk, hheading⟩, hk⟩
        (Bool.of_not_eq_false hfresh) hsearch
      split at hmove
      · next hsettles =>
        rw [if_pos hsettles] at hfailed
        cases hmove
        exact hfailed
      · next hsettles =>
        rw [if_neg hsettles] at hfailed
        cases hmove
        exact hfailed
  | @moves k path f norm record u v w _ h a _ hwalk hk hheading hsearch hmove =>
    have hstand := (hwalk.underway _ _ _ rfl).standpoint.heading hheading
    rw [searchAndMove_found hsearch] at hmove
    cases hverdict : verdictAfterStep P.options tol (scaledNorm a.f w.work.residualScale)
        (a.damping * h.length u.x v) (record.push (h.stride (k + 1) u.x v w a)) with
    | none =>
      rw [hverdict] at hmove
      cases hmove
    | some attempt =>
      rw [hverdict] at hmove
      cases hmove
      refine warranted_of_verdict (hstand.moved hsearch) ?_ hverdict
      exact ⟨k, f, h, u, v, w, a, ⟨⟨_, _, _, hwalk, hheading⟩, hk⟩, hsearch, rfl, rfl⟩

end

/-! ## A residual without a smaller one beside it -/

/-- One at zero and two everywhere else, with a derivative that promises a descent. -/
def cliffProblem : Problem Float Unit 1 where
  label := "loop"
  options :=
    { (Options.standard : Options Float) with exitCriterion := .step, jacobianSource := .analytic }
  model :=
    { Model.ofFunction fun x : Vector Float 1 => .ok (x.map fun x => if x == 0 then 1 else 2) with
      jacobian := some fun _ s => .whole (.ok (.singleton (.singleton 1)), s) }
  auxiliaryCount := 0
  variability := .continuous

/-- An attempt that starts where the residual is least. -/
def cliffSession : Session Float Unit 1 :=
  { Session.fresh 1 () with
    x := .singleton 0
    phase := .iterating
    work := { Workspace.fresh 1 with ready := true } }

/-- The attempt is over without a step, for the search would have had to try a part that is too
short. -/
theorem runDamped_justified_cliff :
    ∃ attempt t, runDamped cliffProblem ⟨1e-10, 0.1⟩ false cliffSession = .ok attempt t ∧
      attempt.failure = none ∧ attempt.record.iterations = 0 ∧
      Warranted cliffProblem ⟨1e-10, 0.1⟩ false cliffSession t attempt := by
  have hcomes : comesTo (runDamped cliffProblem ⟨1e-10, 0.1⟩ false) cliffSession
      (fun attempt _ => decide (attempt.failure = none ∧ attempt.record.iterations = 0)) =
        true := by
    decide +kernel
  obtain ⟨attempt, t, hrun, hended⟩ := exists_of_comesTo hcomes
  obtain ⟨hfailure, hnone⟩ := of_decide_eq_true hended
  exact ⟨attempt, t, hrun, hfailure, hnone,
    runDamped_justified (by decide +kernel) (by decide +kernel) hrun⟩

end AlgebraicLoop
