import AlgebraicLoop.Proofs.SecantUpdates
import AlgebraicLoop.Proofs.SolveSteps

/-!
# The steps that secant updates learn from

A secant update takes the last step and the residual before it from the workspace. Only a move writes
them there, and no attempt asks for them in its first iteration. So an update is made from the two
points that the attempt accepted last, also after a search that failed or a Jacobian that was evaluated
afresh, and never from a point of an earlier attempt.

* `newestStep`, `Walk.history`: the step that a damped attempt remembers;
* `FullStep.history`: the one of an undamped attempt;
* `Walk.updated`, `Strides.updated`: what a Jacobian is updated from;
* `broyden_update_newest`: Broyden's update, and the points it is made from.
-/

namespace AlgebraicLoop
set_option autoImplicit false

open Exact

section
variable {α σ : Type} [Scalar α] {n : Nat} {P : Problem α σ n} {tol : Tolerances α}
  {s t u v : Session α σ n}

/-! ## Damped attempts -/

/-- The last step over a path, newest point first, and the residual that it began with. -/
def newestStep : List (Waypoint α n) → Option (StepHistory α n)
  | q :: r :: _ => some ⟨q.x.zipWith (· - ·) r.x, r.f⟩
  | _ => none

/-- The workspace remembers the last step of the attempt. -/
theorem Walk.history {descent : Bool} {k : Nat} {path : List (Waypoint α n)}
    {progress : Progress α n} (h : Walk P tol descent s k path progress u) :
    u.work.history = newestStep path := by
  have kept : ∀ {u v : Session α σ n}, v.spot P = u.spot P → v.work.history = u.work.history :=
    fun h => congrArg Spot.history h
  have begun : ∀ {answer : Except Mishap (Vector α n)} {t : Session α σ n},
      evaluate P s.x s.cleared = .ok answer t → t.work.history = none := fun hf =>
    kept (congrArg Footing.toSpot ((course_evaluate P _).ok hf).keeps)
  induction h with
  | undefined hf => exact begun hf
  | solved hf _ => exact (begun hf :)
  | start hf _ => exact (begun hf :)
  | exhausted _ _ ih => exact ih
  | gaveUp _ _ hheading ih =>
    exact (kept ((course_heading P _ _ _ _ _ _ _).ok hheading).keeps).trans ih
  | @stays k path f norm record u v w t h _ progress _ _ hheading hsearch hmove ih =>
    have huw : w.work.history = newestStep path :=
      (kept (congrArg Footing.toSpot (h.course_search hsearch).keeps)).trans
        ((kept ((course_heading P _ _ _ _ _ _ _).ok hheading).keeps).trans ih)
    -- A search without a point leaves the step that was remembered.
    obtain ⟨_, ⟨_, _, rfl⟩ | ⟨_, rfl⟩⟩ := searchAndMove_stays hsearch hmove
    · exact huw
    · exact huw
  | @moves k path f norm record u v w t h accepted progress hwalk _ hheading hsearch hmove ih =>
    obtain ⟨rfl, _⟩ := searchAndMove_moves hsearch hmove
    obtain ⟨scale, hhead⟩ := hwalk.known.last f norm record rfl
    cases path with
    | nil => cases hhead
    | cons q rest =>
      cases hhead
      rfl

/-- In its first iteration an attempt does not ask for a secant update. -/
theorem planJacobian_first {o : Options α} {variability : Variability} {event : Bool}
    {w : Workspace α n} {f : Vector α n} {J : Mat α n n} :
    planJacobian o variability event w 1 f ≠ .update J := by
  unfold planJacobian
  rw [if_pos rfl]
  split
  · nofun
  · split
    · nofun
    · split
      · nofun
      · nofun

/-- A Jacobian that is used without an evaluation is kept, or it is updated from the step that is
remembered. -/
theorem prepareJacobian_unevaluated {k : Nat} {x f : Vector α n}
    (h : prepareJacobian P k x f s = .ok (.ok false) t) :
    t = s.aged ∨ k ≠ 1 ∧ ∃ J, secantUpdate? P.options.jacobianUpdate s.work f = some J ∧
      t = s.updated J := by
  have hdue := planJacobian_due P s k f
  unfold prepareJacobian at h
  rw [get_bind_apply] at h
  cases hplan : planJacobian P.options P.variability s.eventSinceJacobian s.work k f with
  | alreadyFresh =>
    rw [hplan] at h
    cases h
  | evaluate =>
    rw [hplan] at h
    obtain ⟨answer, _, _, h⟩ := bind_eq_ok.1 h
    cases answer with
    | error _ => cases h
    | ok _ => cases h
  | keep =>
    rw [hplan] at h
    cases h
    exact .inl rfl
  | update J =>
    rw [hplan] at h hdue
    cases h
    refine .inr ⟨?_, J, hdue.2, rfl⟩
    rintro rfl
    exact planJacobian_first hplan

/-- The session `v` is `u` with its Jacobian updated for the step that led to it from `x`. The
residuals at both ends, `g` and `f`, were found since `o`. -/
structure UpdatedSince (update : JacobianUpdate) (o u v : Session α σ n) (x g f : Vector α n) :
    Prop where
  before : Evaluated o u x g
  here : Evaluated o u u.x f
  history : u.work.history = some ⟨u.x.zipWith (· - ·) x, g⟩
  updated : ∃ J, secantUpdate? update u.work f = some J ∧ v = u.updated J

theorem Walk.updated {descent : Bool} {k : Nat} {path : List (Waypoint α n)} {f : Vector α n}
    {norm : α} {record : RunRecord α} (h : Walk P tol descent s k path (.onward f norm record) u)
    (hrun : prepareJacobian P (k + 1) u.x f u = .ok (.ok false) v) :
    v = u.aged ∨ ∃ q r rest, path = q :: r :: rest ∧ q.x = u.x ∧ q.f = f ∧
      UpdatedSince P.options.jacobianUpdate s u v r.x r.f f := by
  obtain rfl | ⟨_, J, hJ, rfl⟩ := prepareJacobian_unevaluated hrun
  · exact .inl rfl
  have hhistory := h.history
  obtain ⟨scale, hhead⟩ := h.known.last f norm record rfl
  match path, hhead, h with
  | [_], _, _ =>
    -- Without a step there is nothing to update from.
    unfold secantUpdate? at hJ
    rw [hhistory] at hJ
    cases hJ
  | _ :: r :: rest, hhead, h =>
    cases hhead
    exact .inr ⟨_, r, rest, rfl, rfl, rfl, h.known.evaluated r (by simp), h.evaluated, hhistory,
      J, hJ, rfl⟩

/-! ## Undamped attempts -/

/-- A full step is remembered. -/
theorem FullStep.history {k : Nat} {f g : Vector α n} {it : IterationRecord α}
    (h : FullStep P tol k f g it s t) :
    t.work.history = some ⟨t.x.zipWith (· - ·) s.x, f⟩ := by
  obtain ⟨_, _, _, _, _, _, _, _, rfl⟩ := h.taken
  rfl

theorem Strides.updated {k : Nat} {f : Vector α n} {record : RunRecord α}
    (h : Strides P tol s k (.inr (f, record)) u)
    (hrun : prepareJacobian P (k + 1) u.x f u = .ok (.ok false) v) :
    v = u.aged ∨ ∃ j g record' w, k = j + 1 ∧ Strides P tol s j (.inr (g, record')) w ∧
      iterateUndamped P tol k g record' w = .ok (.inr (f, record)) u ∧
        UpdatedSince P.options.jacobianUpdate s u v w.x g f := by
  obtain rfl | ⟨hk, J, hJ, rfl⟩ := prepareJacobian_unevaluated hrun
  · exact .inl rfl
  have hf := h.evaluated.2
  cases h with
  | start _ _ => exact absurd rfl hk
  | @next j g record' w _ _ hw hj hstep =>
    obtain ⟨_, hover, _⟩ | ⟨_, _, hfull, _⟩ := iterateUndamped_cases hstep
    · cases hover
    obtain ⟨hsw, hg⟩ := hw.evaluated
    exact .inr ⟨j, g, record', w, rfl, hw, hstep, hg.later hsw.calls hfull.found.1.calls, hf,
      hfull.history, J, hJ, rfl⟩

/-! ## Broyden's update -/

/-- The session `v` is `u` after Broyden's update for the step that led to it from `x`. The residuals
at both ends, `g` and `f`, were found since `o`. -/
structure BroydenSince (o u v : Session α σ n) (x g f : Vector α n) : Prop where
  before : Evaluated o u x g
  here : Evaluated o u u.x f
  updated : ∃ J,
    broyden u.work.jacobian (u.x.zipWith (· - ·) x) g f u.work.variableScale = some J ∧
      v = u.updated J

theorem UpdatedSince.broydenSince {o : Session α σ n} {x g f : Vector α n}
    (h : UpdatedSince .broyden o u v x g f) : BroydenSince o u v x g f := by
  obtain ⟨J, hJ, hv⟩ := h.updated
  unfold secantUpdate? at hJ
  rw [h.history] at hJ
  exact ⟨h.before, h.here, J, hJ, hv⟩

end

/-- Broyden's update is the one of least change, where it is not refused; and each attempt that uses
it, damped or not, makes it from the two points it accepted last and their residuals. -/
theorem broyden_update_newest {K : Type} [Field K] [LinearOrder K] [IsStrictOrderedRing K]
    [SquareRoot K] {n : Nat} (J : Fin n → Fin n → K) (p old new d : Fin n → K) {α σ : Type}
    [Scalar α] {m : Nat} {P : Problem α σ m} (hbroyden : P.options.jacobianUpdate = .broyden)
    (tol : Tolerances α) (s : Session α σ m) :
    (broyden (ofMatrix J) (ofField p) (ofField old) (ofField new) (ofField d) = none ↔
      isUsable (finite (squaredLength p d) : Exact K) = false) ∧
    (∀ A, broyden (ofMatrix J) (ofField p) (ofField old) (ofField new) (ofField d) = some A →
      ∃ J', A = ofMatrix J' ∧ LeastChange J p old new d J') ∧
    (∀ descent k path f norm record u v,
      Walk P tol descent s k path (.onward f norm record) u →
      prepareJacobian P (k + 1) u.x f u = .ok (.ok false) v →
        v = u.aged ∨ ∃ q r rest, path = q :: r :: rest ∧ q.x = u.x ∧ q.f = f ∧
          BroydenSince s u v r.x r.f f) ∧
    ∀ k f record u v, Strides P tol s k (.inr (f, record)) u →
      prepareJacobian P (k + 1) u.x f u = .ok (.ok false) v →
        v = u.aged ∨ ∃ j g record' w, k = j + 1 ∧ Strides P tol s j (.inr (g, record')) w ∧
          iterateUndamped P tol k g record' w = .ok (.inr (f, record)) u ∧
            BroydenSince s u v w.x g f := by
  obtain ⟨hnone, hsome⟩ := broyden_leastChange J p old new d
  refine ⟨hnone, hsome, fun descent k path f norm record u v hwalk hrun => ?_,
    fun k f record u v hstrides hrun => ?_⟩
  · refine (hwalk.updated hrun).imp_right ?_
    rintro ⟨q, r, rest, hpath, hx, hf, hupdated⟩
    rw [hbroyden] at hupdated
    exact ⟨q, r, rest, hpath, hx, hf, hupdated.broydenSince⟩
  · refine (hstrides.updated hrun).imp_right ?_
    rintro ⟨j, g, record', w, hk, hw, hstep, hupdated⟩
    rw [hbroyden] at hupdated
    exact ⟨j, g, record', w, hk, hw, hstep, hupdated.broydenSince⟩

/-! ## A square root by secants -/

/-- The positive root of `x² - 2`. The model knows its derivative. -/
def secantProblem : Problem (Exact ℚ) Unit 1 where
  label := "loop"
  options :=
    { (Options.standard : Options (Exact ℚ)) with
      jacobianSource := .analytic
      jacobianUpdate := .broyden }
  model :=
    { Model.ofFunction fun x : Vector (Exact ℚ) 1 => .ok (x.map fun y => y * y - 2) with
      jacobian := some fun x s => .whole (.ok (x.map fun y => Vector.replicate 1 (y + y)), s) }
  auxiliaryCount := 0
  variability := .continuous

def secantTolerances : Tolerances (Exact ℚ) := secantProblem.options.firstTolerances 1

def secantSession : Session (Exact ℚ) Unit 1 :=
  { Session.fresh 1 () with x := Vector.replicate 1 1 }

/-- A first iteration from the residual `f` goes on, and its Jacobian is not evaluated again. -/
def secantIteration (f : Vector (Exact ℚ) 1) (t : Session (Exact ℚ) Unit 1) : Bool :=
  decide (¬ scaledNorm f t.work.residualScale ≤ 0.01 * secantTolerances.function) &&
  comesTo (iterateDamped secantProblem secantTolerances false
      (tightensScales secantProblem.options secantSession.work) 1 f
      (scaledNorm f t.work.residualScale) (t.blankRecord f)) (t.normed f)
    fun progress u => match progress with
      | .over _ => false
      | .onward g _ _ => comesTo (prepareJacobian secantProblem 2 u.x g) u
          fun answer v => match answer with
            | .ok false => decide (v.work.jacobian = ofMatrix ![![5 / 2]] ∧
                v.work.generation ≠ u.work.generation)
            | _ => false

theorem secantIteration_walk {f : Vector (Exact ℚ) 1} {t : Session (Exact ℚ) Unit 1}
    (ht : evaluate secantProblem secantSession.x secantSession.cleared = .ok (.ok f) t)
    (h : secantIteration f t = true) :
    ∃ path g norm record u v,
      Walk secantProblem secantTolerances false secantSession 1 path (.onward g norm record) u ∧
      prepareJacobian secantProblem 2 u.x g u = .ok (.ok false) v ∧
      v.work.jacobian = ofMatrix ![![5 / 2]] ∧ v.work.generation ≠ u.work.generation := by
  obtain ⟨hlarge, hiterate⟩ := Bool.and_eq_true_iff.1 h
  obtain ⟨progress, u, hu, hprepare⟩ := exists_of_comesTo hiterate
  obtain _ | ⟨g, norm, record⟩ := progress
  · cases hprepare
  obtain ⟨answer, v, hv, hupdated⟩ := exists_of_comesTo hprepare
  obtain _ | _ | _ := answer
  · cases hupdated
  · obtain ⟨hJ, hgeneration⟩ := of_decide_eq_true hupdated
    obtain ⟨path, hwalk⟩ :=
      (Walk.start ht (of_decide_eq_true hlarge)).iterate (by decide) hu
    exact ⟨path, g, norm, record, u, v, hwalk, hv, hJ, hgeneration⟩
  · cases hupdated

set_option maxRecDepth 100000 in
/-- From one the attempt goes to one and a half, and takes the slope of the secant through both points
for its next step. -/
theorem broyden_update_newest_secant :
    ∃ (path : List (Waypoint (Exact ℚ) 1)) (f : Vector (Exact ℚ) 1) (norm : Exact ℚ)
        (record : RunRecord (Exact ℚ)) (u v : Session (Exact ℚ) Unit 1) (q r : Waypoint (Exact ℚ) 1)
        (rest : List (Waypoint (Exact ℚ) 1)) (J' : Fin 1 → Fin 1 → ℚ),
      Walk secantProblem secantTolerances false secantSession 1 path (.onward f norm record) u ∧
      prepareJacobian secantProblem 2 u.x f u = .ok (.ok false) v ∧
      v.work.jacobian = ofMatrix ![![5 / 2]] ∧ path = q :: r :: rest ∧
      BroydenSince secantSession u v r.x r.f f ∧
      LeastChange ![![2]] ![1 / 2] ![-1] ![1 / 4] ![1] J' := by
  have hway : comesTo (evaluate secantProblem secantSession.x) secantSession.cleared
      (fun answer t => answer.toOption.any (secantIteration · t)) = true := by decide +kernel
  obtain ⟨answer, t, ht, hway⟩ := exists_of_comesTo hway
  cases answer with
  | error mishap => cases hway
  | ok f =>
    obtain ⟨path, g, norm, record, u, v, hwalk, hv, hJ, hgeneration⟩ := secantIteration_walk ht hway
    obtain ⟨hnone, hsome, hdamped, _⟩ := broyden_update_newest (P := secantProblem) ![![2]]
      ![1 / 2] ![-1] ![1 / 4] ![(1 : ℚ)] rfl secantTolerances secantSession
    obtain rfl | ⟨q, r, rest, hpath, _, _, hupdate⟩ := hdamped _ _ _ _ _ _ _ _ hwalk hv
    · exact absurd rfl hgeneration
    obtain ⟨A, hA⟩ := Option.ne_none_iff_exists'.1 fun h => absurd (hnone.1 h) (by decide +kernel)
    obtain ⟨J', _, hleast⟩ := hsome A hA
    exact ⟨path, g, norm, record, u, v, q, r, rest, J', hwalk, hv, hJ, hpath, hupdate, hleast⟩

end AlgebraicLoop
