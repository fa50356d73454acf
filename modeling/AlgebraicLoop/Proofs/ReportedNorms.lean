import AlgebraicLoop.Proofs.FinalPoints
import AlgebraicLoop.Proofs.SolveSteps

/-!
# The residual norm that a solve reports

A verdict carries a residual norm. It is the greatest scaled residual at the point that the solve
leaves, with the residual scales that it leaves, apart from three cases: a retry that stopped short
after a success moved on or changed the scales; the first attempt tightened the scales after it had
accepted its last point; or the residual was undefined where the last attempt began.

* `Model.IsFunction`, `Truthful`: a residual that is a function of the point, and calls that answer
  with it;
* `Walk.measured`, `runDamped_measured`: the norm on the record of an attempt;
* `IsNorm`, `Measured`, `Honest`: what the norm of an attempt says;
* `StalledAfter`, `TightenedLast`: the first two exceptions;
* `solve_reports_norm`: the norm of every verdict.
-/

namespace AlgebraicLoop
set_option autoImplicit false

section
variable {α σ : Type} {n : Nat}

/-! ## Residuals that are functions of the point -/

/-- A model whose residual is a function of the point. -/
def Model.IsFunction (model : Model α σ n) (F : Vector α n → Except EvalFailure (Vector α n)) :
    Prop := ∀ x s, (model.evaluate x s).1 = F x

/-- A session that follows on another one; whatever residual was asked for in between, the answer was
that of the function. -/
structure Truthful (F : Vector α n → Except EvalFailure (Vector α n)) (s t : Session α σ n) :
    Prop where
  calls : t.calls.toList = s.calls.toList ++ callsSince s t
  answers : ∀ x answer, .evaluate x answer ∈ callsSince s t → answer = F x

namespace Truthful
variable {F : Vector α n → Except EvalFailure (Vector α n)} {s t u : Session α σ n}

theorem of_eq (hcalls : t.calls = s.calls) : Truthful F s t := by
  have new : t.calls.toList = s.calls.toList ++ [] := by rw [hcalls, List.append_nil]
  refine ⟨by rw [callsSince_of_eq new, new], fun x answer hmem => ?_⟩
  rw [callsSince_of_eq new] at hmem
  cases hmem

theorem refl (s : Session α σ n) : Truthful F s s := of_eq rfl

theorem of_call {c : Call α n} (hcalls : t.calls = s.calls.push c)
    (hc : ∀ x answer, c = .evaluate x answer → answer = F x) : Truthful F s t := by
  have new : t.calls.toList = s.calls.toList ++ [c] := by rw [hcalls, Array.toList_push]
  refine ⟨by rw [callsSince_of_eq new, new], fun x answer hmem => ?_⟩
  rw [callsSince_of_eq new] at hmem
  exact hc x answer (List.mem_singleton.1 hmem).symm

theorem trans (hst : Truthful F s t) (htu : Truthful F t u) : Truthful F s u := by
  have hcalls := callsSince_trans hst.calls htu.calls
  refine ⟨by rw [hcalls, htu.calls, hst.calls, List.append_assoc], fun x answer hmem => ?_⟩
  rw [hcalls] at hmem
  obtain hmem | hmem := List.mem_append.1 hmem
  · exact hst.answers x answer hmem
  · exact htu.answers x answer hmem

end Truthful

theorem truthful_request {F : Vector α n → Except EvalFailure (Vector α n)} {β : Type}
    (request : Answer σ β) (kind : Request) (record : Except EvalFailure β → Call α n)
    (hrecord : ∀ answer x value, record answer ≠ .evaluate x value) :
    Follows (Truthful F) (ask request record >>= settleAnswer kind) :=
  follows_request fun _ => Truthful.of_call rfl fun x value hc => absurd hc (hrecord _ x value)

theorem truthful_updateAuxiliary {F : Vector α n → Except EvalFailure (Vector α n)}
    (P : Problem α σ n) (x : Vector α n) : Follows (Truthful F) (updateAuxiliary P x) :=
  follows_updateAuxiliary fun _ _ => Truthful.of_call rfl nofun

theorem truthful_writeBack {F : Vector α n → Except EvalFailure (Vector α n)}
    (P : Problem α σ n) : Follows (Truthful F) (writeBack P) :=
  follows_writeBack fun _ => Truthful.of_call rfl nofun

variable [Scalar α]

theorem truthful_evaluate {F : Vector α n → Except EvalFailure (Vector α n)} {P : Problem α σ n}
    (hF : P.model.IsFunction F) (x : Vector α n) : Follows (Truthful F) (evaluate P x) := by
  refine follows_evaluate fun s _ _ => Truthful.of_call rfl fun y answer hc => ?_
  cases hc
  exact hF x s.model

theorem truthful_prepareUnknowns {F : Vector α n → Except EvalFailure (Vector α n)}
    (P : Problem α σ n) : Follows (Truthful F) (prepareUnknowns P) :=
  follows_prepareUnknowns Truthful.refl
    (fun _ _ _ => Truthful.of_call rfl fun _ _ => nofun) fun _ _ =>
      Truthful.of_call rfl fun _ _ => nofun

/-- Whatever a part of a solve does, it is answered by the function. -/
theorem closed_truthful {F : Vector α n → Except EvalFailure (Vector α n)} {P : Problem α σ n}
    (hF : P.model.IsFunction F) {γ : Type} (keep : Session α σ n → γ) :
    Closed P true keep fun _ a => Follows (Truthful F) a where
  value _ := Truthful.refl
  seq ha hf := ha.bind (fun _ _ _ => Truthful.trans) hf
  read _ hf s := hf s s
  residualNominals _ hf s := hf s s
  update hg s := Truthful.of_eq (congrArg Ledger.calls (hg.silent s))
  notice _ _ := Truthful.of_eq rfl
  residual := truthful_evaluate hF
  written _ _ _ _ hstore s := hstore _ s
  jacobian _ _ _ _ := truthful_request _ _ _ nofun
  directional _ _ _ _ := truthful_request _ _ _ nofun
  auxiliary := truthful_updateAuxiliary P
  limit _ _ _ := Truthful.of_eq rfl

/-- Whatever an operation does, it is answered by the function. -/
theorem routine_truthful {F : Vector α n → Except EvalFailure (Vector α n)} {P : Problem α σ n}
    (hF : P.model.IsFunction F) : Routine P (Truthful F) where
  trans _ _ _ := Truthful.trans
  light _ _ h := Truthful.of_eq h.calls
  closed := closed_truthful hF (Session.stage P)
  prepareUnknowns := truthful_prepareUnknowns P
  setUp s := after_setUp (fun _ => Truthful.refl s) fun _ => Truthful.of_eq rfl
  writeBack := truthful_writeBack P
  rewind _ _ _ := Truthful.of_eq rfl

/-! ## The norm on the record of an attempt -/

section
variable {P : Problem α σ n} {tol : Tolerances α} {descent : Bool}

/-- An iteration that does not tighten the scales keeps them. -/
theorem course_heading_still (P : Problem α σ n) (tol : Tolerances α) (descent : Bool)
    (iteration : Nat) (f : Vector α n) (norm : α) (record : RunRecord α) :
    Follows (Course (Session.footing P))
      (heading P tol descent false iteration f norm record) := by
  have hC := closed_course P true id fun s : Session α σ n => (rfl : s.footing P = _)
  refine hC.read (fun _ _ => rfl) fun s => ?_
  refine hC.seq (hC.prepareJacobian iteration s.x f) fun answer => ?_
  cases answer with
  | error _ => exact hC.value _
  | ok fresh =>
    refine hC.seq (hC.value norm) fun norm => ?_
    refine hC.seq (hC.computeStep f _) fun found => ?_
    cases found with
    | none => exact hC.value _
    | some found =>
      refine hC.seq (hC.ground.grip.searchDirection descent s.x f _ _) fun chosen => ?_
      exact hC.value _

/-- At every position the record of an attempt has the norm of the residual at the point that was
accepted last, with the scales of that time. These are still the scales when none are tightened. -/
theorem Walk.measured {s u : Session α σ n} {k : Nat} {path : List (Waypoint α n)}
    {progress : Progress α n} (h : Walk P tol descent s k path progress u) :
    ∀ p, path.head? = some p → progress.record.residualNorm = scaledNorm p.f p.scale ∧
      (tightensScales P.options s.work = false → u.work.residualScale = p.scale) := by
  have held : ∀ {k : Nat} {f : Vector α n} {norm : α} {record : RunRecord α} {u v : Session α σ n}
      {found : Attempt α ⊕ Heading α n},
      heading P tol descent (tightensScales P.options s.work) k f norm record u = .ok found v →
      tightensScales P.options s.work = false → v.work.residualScale = u.work.residualScale := by
    intro k f norm record u v found hheading htighten
    rw [htighten] at hheading
    exact congrArg Footing.residualScale ((course_heading_still P _ _ _ _ _ _).ok hheading).keeps
  induction h with
  | undefined _ => exact fun p hp => nomatch hp
  | solved _ _ | start _ _ =>
    intro p hp
    cases hp
    exact ⟨rfl, fun _ => rfl⟩
  | exhausted _ _ ih => exact ih
  | gaveUp _ _ hheading ih =>
    intro p hp
    obtain ⟨hnorm, hscale⟩ := ih p hp
    refine ⟨?_, fun htighten => (held hheading htighten).trans (hscale htighten)⟩
    rw [← hnorm]
    exact congrArg RunRecord.residualNorm (heading_gaveUp hheading)
  | @stays k path f norm record u v w t h _ progress _ _ hheading hsearch hmove ih =>
    intro p hp
    obtain ⟨hnorm, hscale⟩ := ih p hp
    have hvw : w.work.residualScale = v.work.residualScale :=
      congrArg Footing.residualScale (h.course_search hsearch).keeps
    obtain ⟨hrecord, hend⟩ := searchAndMove_stays hsearch hmove
    refine ⟨by rw [hrecord]; exact hnorm, fun htighten => ?_⟩
    have hv := (held hheading htighten).trans (hscale htighten)
    obtain ⟨_, _, rfl⟩ | ⟨_, rfl⟩ := hend
    · exact hvw.trans hv
    · exact hvw.trans hv
  | moves _ _ _ hsearch hmove _ =>
    intro p hp
    cases hp
    obtain ⟨rfl, hrecord, _⟩ := searchAndMove_moves hsearch hmove
    exact ⟨congrArg RunRecord.residualNorm hrecord, fun _ => rfl⟩

end

/-! ## What the norm of an attempt says -/

/-- The greatest scaled residual; of a single equation its scaled residual itself. -/
def IsNorm (norm : α) (f scale : Vector α n) : Prop :=
  norm = scaledNorm f scale ∨
    ∃ h : n = 1, norm = abs (getElem f 0 (pos_of_one h) * getElem scale 0 (pos_of_one h))

/-- The residual is undefined at the point, or not finite. -/
def UndefinedAt (F : Vector α n → Except EvalFailure (Vector α n)) (x : Vector α n) : Prop :=
  ∀ f, F x = .ok f → allFinite f = false

/-- The norm is the one at the point of the session, with the residual scales of the session. -/
def Measured (F : Vector α n → Except EvalFailure (Vector α n)) (norm : α) (t : Session α σ n) :
    Prop :=
  ∃ f, F t.x = .ok f ∧ allFinite f = true ∧ IsNorm norm f t.work.residualScale

/-- The norm of the attempt is the one at the point of the session, or zero where the attempt ended
with an undefined residual at its starting point. -/
def Honest (F : Vector α n → Except EvalFailure (Vector α n)) (attempt : Attempt α)
    (t : Session α σ n) : Prop :=
  Measured F attempt.record.residualNorm t ∨
    attempt = RunRecord.empty.stopped .initialEvaluation ∧ UndefinedAt F t.x

/-- The first attempt of the solve that began in `s` left its point to `t`, and it had tightened the
scales after it accepted that point. -/
def TightenedLast (P : Problem α σ n) (s t : Session α σ n) (attempt : Attempt α) : Prop :=
  ∃ first u k p path v, openSolve P s = .ok first u ∧
    Walk P (P.options.firstTolerances n) false
      { u with work := { u.work with firstAttempt := true, retrying := false } } k (p :: path)
      (.over attempt) v ∧
    (P.options.residualScaling = .aggressive ∨ P.options.residualScaling = .freshJacobian) ∧
    v.work.residualScale ≠ p.scale ∧ attempt.record.residualNorm = scaledNorm p.f p.scale ∧
    t.x = p.x ∧ t.work.residualScale = v.work.residualScale

/-- The attempts before the rescaled retry of the first solve, which began in `s`, had succeeded; the
retry stopped short and left its point and its residual scales to `t`. -/
def StalledAfter (P : Problem α σ n) (s t : Session α σ n) (attempt : Attempt α) : Prop :=
  ∃ opened opening u v w retry y, openSolve P s = .ok true u ∧ firstAttempt P u = .ok opened v ∧
    tryDescent P opened v = .ok opening w ∧ opening.attempt = attempt ∧
    P.options.residualScaling ≠ .none ∧
    rescaledRetry P { w with notices := w.notices.push .rescaling } = .ok retry y ∧
    retry.failed = true ∧ t.x = y.x ∧ t.work.residualScale = y.work.residualScale

section
variable {P : Problem α σ n} {F : Vector α n → Except EvalFailure (Vector α n)}
  {s t u : Session α σ n} {attempt : Attempt α}

theorem firstAttempt_kept (h : Course (Session.stage P) s t) :
    t.work.firstAttempt = s.work.firstAttempt :=
  congrArg (fun p : Stage α n => p.firstAttempt) h.keeps

theorem Honest.keep (h : Honest F attempt t) (hx : u.x = t.x)
    (hscale : u.work.residualScale = t.work.residualScale) : Honest F attempt u := by
  unfold Honest Measured
  rw [hx, hscale]
  exact h

theorem Truthful.evaluated {x f : Vector α n} (h : Truthful F s t)
    (hf : Evaluated s t x f) : F x = .ok f := (h.answers x _ hf.1).symm

theorem Truthful.undefined {x : Vector α n} (h : Truthful F s t)
    (hx : Undefined s t x) : UndefinedAt F x := by
  obtain ⟨answer, hmem, hbad⟩ := hx
  exact fun f hf => hbad f ((h.answers x answer hmem).trans hf)

/-- The norm of an attempt is honest, unless the attempt tightened the scales after it had accepted
its last point. -/
theorem runDamped_measured (hF : P.model.IsFunction F) {tol : Tolerances α} {descent : Bool}
    (h : runDamped P tol descent s = .ok attempt t) :
    Honest F attempt t ∨
      ∃ k p path, Walk P tol descent s k (p :: path) (.over attempt) t ∧
        tightensScales P.options s.work = true ∧ t.work.residualScale ≠ p.scale ∧
        attempt.record.residualNorm = scaledNorm p.f p.scale ∧ t.x = p.x := by
  have htrue : Truthful F s t := by
    have hC := closed_truthful hF (Session.stage P)
    exact (hC.runDamped (hC.lineSearch Truthful.refl) tol descent).ok h
  obtain ⟨k, path, hwalk⟩ := runDamped_eq_ok.1 h
  cases path with
  | nil =>
    obtain ⟨hover, mishap, hf⟩ := hwalk.of_nil
    cases hover
    have hx : t.x = s.x := hwalk.known.at_point
    refine .inl (.inr ⟨rfl, ?_⟩)
    rw [hx]
    exact htrue.undefined (undefined_of_error hf : Undefined s.cleared t s.x)
  | cons p path =>
    obtain ⟨hnorm, hscale⟩ := hwalk.measured p rfl
    have hx : t.x = p.x := hwalk.known.at_point
    by_cases hsame : t.work.residualScale = p.scale
    · have hf := hwalk.known.evaluated p (List.mem_cons_self ..)
      refine .inl (.inl ⟨p.f, ?_, hf.2, .inl ?_⟩)
      · rw [hx]
        exact htrue.evaluated hf
      · rw [hsame]
        exact hnorm
    · refine .inr ⟨k, p, path, hwalk, ?_, hsame, hnorm, hx⟩
      exact Bool.of_not_eq_false fun htighten => hsame (hscale htighten)

theorem runDamped_honest (hF : P.model.IsFunction F) {tol : Tolerances α} {descent : Bool}
    (hfirst : s.work.firstAttempt = false) (h : runDamped P tol descent s = .ok attempt t) :
    Honest F attempt t := by
  obtain hhonest | ⟨_, _, _, _, htighten, _⟩ := runDamped_measured hF h
  · exact hhonest
  · simp [tightensScales, hfirst] at htighten

/-! ## The norm between the phases of a solve -/

/-- The residual at a sample of a single unknown is on record. -/
theorem Sampled.evaluated {p : Sample α} (h : Sampled s t p) :
    ∃ f, Evaluated s t (Vector.replicate n p.x) f ∧ ∃ h : n = 1, getElem f 0 (pos_of_one h) = p.f := by
  obtain ⟨x, f, hf, hp⟩ := h
  unfold sampleOf? at hp
  split at hp
  · next hn =>
    subst hn
    cases hp
    have hsingle : Vector.replicate 1 x[0] = x := by
      ext i hi
      obtain rfl : i = 0 := by omega
      simp
    refine ⟨f, ?_, rfl, rfl⟩
    rw [hsingle]
    exact hf
  · cases hp

/-- The norm after a refinement is the scaled residual at the root. -/
theorem Refinement.measured [LawfulScalar α] {e : Session α σ n} {attempt' : Attempt α}
    {below above : Sample α} (h : Refinement P t u below above) (hse : Trail s e) (het : Trail e t)
    (he : e.bracket = {}) (htrue : Truthful F s u)
    (hrun : refineAttempt P attempt t = .ok (attempt', true) u) :
    Measured F attempt'.record.residualNorm u := by
  obtain ⟨hn, found, v, hv, hconverged, hmove⟩ := h.search
  have htv := ((course_findRoot P hn below above 0).ok hv).trail
  have hroot := findRoot_ok het (straddles_of_interval het he h.interval) hv hconverged
  obtain ⟨f, hf, _, hvalue⟩ := (hroot.1.since hse (het.trans htv)).evaluated
  have hoption : P.options.refineBracket = true := by
    refine Bool.of_not_eq_false fun hoff => ?_
    unfold refineAttempt at hrun
    rw [hoff] at hrun
    cases hrun
  have hrefined : refineAttempt P attempt t =
      .ok (refinedAttempt u.work hn found.point attempt, true) u := by
    unfold refineAttempt refineRoot
    rw [if_pos hoption, dif_pos hn, get_bind_apply, h.interval]
    dsimp only
    rw [bind_ok hv]
    dsimp only
    rw [if_pos hconverged, bind_ok hmove]
    rfl
  rw [hrefined] at hrun
  cases hrun
  have hmoved : u.x = Vector.replicate n found.point.x ∧ Truthful F u v := by
    cases hmove
    exact ⟨rfl, Truthful.of_eq rfl⟩
  refine ⟨f, ?_, hf.2, .inr ⟨hn, ?_⟩⟩
  · rw [hmoved.1]
    exact (htrue.trans hmoved.2).evaluated hf
  · rw [hvalue]
    rfl

/-- The norm of the first attempt is honest, refined or not, unless the scales were tightened last. -/
theorem firstAttempt_told [LawfulScalar α] (hF : P.model.IsFunction F) {first : Bool}
    {standing : Standing α} (hopen : openSolve P s = .ok first t)
    (h : firstAttempt P t = .ok standing u) :
    u.work.firstAttempt = false ∧
      (Honest F standing.attempt u ∨ TightenedLast P s u standing.attempt) := by
  obtain ⟨attempt, v, hrun, hrefine⟩ := firstAttempt_ok h
  have htv := (course_runDamped P _ _).ok hrun
  have hvu := (course_refineAttempt P attempt).ok hrefine
  refine ⟨firstAttempt_kept hvu, ?_⟩
  obtain ⟨_, rfl, hkeep⟩ | ⟨hrefined, _, _, _, hrefinement⟩ := refineAttempt_cases hrefine
  · have hscale : u.work.residualScale = v.work.residualScale :=
      congrArg Footing.residualScale hkeep.keeps
    obtain hhonest | ⟨k, p, path, hwalk, htighten, hscales, hnorm, hx⟩ := runDamped_measured hF hrun
    · exact .inl (hhonest.keep hkeep.point hscale)
    · refine .inr ⟨first, t, k, p, path, v, hopen, hwalk, ?_, hscales, hnorm,
        hkeep.point.trans hx, hscale⟩
      simpa [tightensScales] using (Bool.and_eq_true_iff.1 htighten).2
  · rw [hrefined] at hrefine
    obtain ⟨e, he, hse, het⟩ := openSolve_ok hopen
    have hbegin : Trail t { t with work := { t.work with firstAttempt := true, retrying := false } } :=
      Course.of_eq rfl rfl rfl
    have hmark : Trail v { v with work := { v.work with firstAttempt := false } } :=
      Course.of_eq rfl rfl rfl
    have hC := closed_truthful hF (Session.setting P)
    have htrue : Truthful F s u := ((routine_truthful hF).openSolve.ok hopen).trans
      ((hC.firstAttempt (fun _ hf s => hf s s) (hC.lineSearch Truthful.refl)).ok h)
    exact .inl (.inl (hrefinement.measured hse
      (((het.trans hbegin).trans htv.trail).trans hmark) he htrue hrefine))

theorem tryDescent_told (hF : P.model.IsFunction F) {standing standing' : Standing α}
    (hfirst : t.work.firstAttempt = false)
    (htold : Honest F standing.attempt t ∨ TightenedLast P s t standing.attempt)
    (h : tryDescent P standing t = .ok standing' u) :
    u.work.firstAttempt = false ∧
      (Honest F standing'.attempt u ∨ TightenedLast P s u standing'.attempt) := by
  obtain ⟨rfl, rfl⟩ | ⟨attempt, _, hrun, rfl⟩ := tryDescent_ok h
  · exact ⟨hfirst, htold⟩
  · have hkept := firstAttempt_kept ((course_runDamped P _ _).ok hrun)
    exact ⟨hkept.trans hfirst, .inl (runDamped_honest hF (by exact hfirst) hrun)⟩

theorem rescaledRetry_honest (hF : P.model.IsFunction F) (hfirst : t.work.firstAttempt = false)
    {retry : Attempt α} (h : rescaledRetry P t = .ok retry u) :
    u.work.firstAttempt = false ∧ Honest F retry u := by
  obtain ⟨v, w, hv, hw, rfl⟩ := rescaledRetry_runs h
  have hscaled : v.work.firstAttempt = t.work.firstAttempt :=
    congrArg (fun p : Spot α n => p.firstAttempt) ((course_updateResidualScales P).ok hv).keeps
  have hbegin := hscaled.trans hfirst
  have hrun := firstAttempt_kept ((course_runDamped P _ _).ok hw)
  exact ⟨hrun.trans hbegin, (runDamped_honest hF (by exact hbegin) hw).keep rfl rfl⟩

/-- The norm of the standing after the rescaled retry is honest, or it is that of a success: of one
that tightened the scales last, or of one before a retry that stopped short. -/
theorem tryRescaled_told (hF : P.model.IsFunction F) {first : Bool}
    {opened opening standing : Standing α} {s₁ s₂ s₃ v : Session α σ n}
    (hopen : openSolve P s = .ok first s₁) (hopened : firstAttempt P s₁ = .ok opened s₂)
    (hdescent : tryDescent P opened s₂ = .ok opening s₃) (hfirst : s₃.work.firstAttempt = false)
    (htold : Honest F opening.attempt s₃ ∨ TightenedLast P s s₃ opening.attempt)
    (h : tryRescaled P first opening s₃ = .ok standing v) :
    v.work.firstAttempt = false ∧
      (Honest F standing.attempt v ∨ standing.attempt.failure = none ∧
        (TightenedLast P s v standing.attempt ∨ StalledAfter P s v standing.attempt)) := by
  by_cases hdue : P.options.residualScaling ≠ .none ∧
      (first = true ∨ opening.attempt.failed = true)
  · obtain ⟨retry, t, hretry, rfl, rfl⟩ := tryRescaled_due hdue h
    obtain ⟨hkept, hhonest⟩ := rescaledRetry_honest hF (by exact hfirst) hretry
    refine ⟨hkept, ?_⟩
    dsimp only
    obtain hafter | ⟨hfailure, hfailed, hafter, hnotices⟩ := opening.after_cases retry
    · rw [hafter]
      exact .inl (hhonest.keep rfl rfl)
    · obtain rfl : first = true := hdue.2.resolve_right (by simp [Attempt.failed, hfailure])
      rw [hnotices] at hretry
      rw [hafter]
      exact .inr ⟨hfailure, .inr ⟨opened, opening, s₁, s₂, s₃, retry, t, hopen, hopened, hdescent,
        rfl, hdue.1, hretry, hfailed, rfl, rfl⟩⟩
  · unfold tryRescaled at h
    rw [if_neg hdue] at h
    cases h
    refine ⟨hfirst, htold.imp_right fun htightened => ⟨?_, .inl htightened⟩⟩
    obtain ⟨_, _, _, _, _, _, _, _, hmode, _⟩ := htightened
    have hscaling : P.options.residualScaling ≠ .none := by
      intro hnone
      simp [hnone] at hmode
    obtain ⟨_, hopened⟩ : first = false ∧ opening.attempt.failure = none := by
      simpa [Attempt.failed, hscaling] using hdue
    exact hopened

/-- The norm of the last standing of a solve. -/
theorem tryNominal_told (hF : P.model.IsFunction F) {standing standing' : Standing α}
    {Q : Session α σ n → Attempt α → Prop} (hfirst : t.work.firstAttempt = false)
    (htold : Honest F standing.attempt t ∨ standing.attempt.failure = none ∧ Q t standing.attempt)
    (h : tryNominal P standing t = .ok standing' u) :
    Honest F standing'.attempt u ∨
      standing'.attempt.failure = none ∧ Q u standing'.attempt := by
  obtain ⟨rfl, rfl⟩ | ⟨x, attempt, _, _, hrun, rfl⟩ := tryNominal_ok h
  · exact htold
  · exact .inl (runDamped_honest hF (by exact hfirst) hrun)

/-- A solve by the damped method of a residual that is a function of the point, when it comes to a
verdict, reports the norm of the residual at the final point with the final scales. The exceptions are
a success whose scales were tightened or computed anew after its last point was accepted, and a last
attempt that found the residual to be undefined, which reports zero. -/
theorem solve_reports_norm [LawfulScalar α] {b b' : Block α σ n}
    {F : Vector α n → Except EvalFailure (Vector α n)} {r : Except (Halt α) (Report α)} {norm : α}
    {reason : Option FailureReason} (hmethod : b.problem.options.method = .damped)
    (hF : b.problem.model.IsFunction F) (h : b.solve = (r, b'))
    (hr : verdict? r = some (norm, reason)) :
    Measured F norm b'.session ∨
      (reason = none ∧ ∃ u attempt, prelude b.problem b.session = .ok () u ∧
        attempt.record.residualNorm = norm ∧ (TightenedLast b.problem u b'.session attempt ∨
          StalledAfter b.problem u b'.session attempt)) ∨
      reason = some .initialEvaluation ∧ norm = 0 ∧ UndefinedAt F b'.session.x := by
  obtain ⟨u, t, hprelude, hjudged, rfl⟩ := solve_verdict hmethod h hr
  cases hjudged with
  | @closed _ opened opening rescaled final _ _ _ _ s₅ hopen hfirst hdescent hrescaled hnominal
      hclosing =>
  obtain ⟨hflag, htold⟩ := firstAttempt_told hF hopen hfirst
  obtain ⟨hflag, htold⟩ := tryDescent_told hF hflag htold hdescent
  obtain ⟨hflag, htold⟩ := tryRescaled_told hF hopen hfirst hdescent hflag htold hrescaled
  have hlast := tryNominal_told (Q := fun v attempt => TightenedLast b.problem u v attempt ∨
    StalledAfter b.problem u v attempt) hF hflag htold hnominal
  obtain (hmeasured | ⟨hattempt, hundefined⟩) | ⟨hfailure, hexception⟩ := hlast
  · left
    change Measured F _ t
    unfold Measured
    rw [hclosing.x, hclosing.scale]
    exact hmeasured
  · refine .inr (.inr ?_)
    rw [hattempt]
    refine ⟨rfl, rfl, ?_⟩
    change UndefinedAt F t.x
    rw [hclosing.x]
    exact hundefined
  · refine .inr (.inl ⟨hfailure, u, final.attempt, hprelude, rfl, ?_⟩)
    refine hexception.imp ?_ ?_
    · rintro ⟨first, v, k, p, path, w, hopen, hwalk, hmode, hscales, hnorm, hx, hscale⟩
      exact ⟨first, v, k, p, path, w, hopen, hwalk, hmode, hscales, hnorm,
        hclosing.x.trans hx, hclosing.scale.trans hscale⟩
    · rintro ⟨opened, opening, v, w, y, retry, z, hopen, hopened, hdescent, hattempt, hmode, hretry,
        hfailed, hx, hscale⟩
      exact ⟨opened, opening, v, w, y, retry, z, hopen, hopened, hdescent, hattempt, hmode, hretry,
        hfailed, hclosing.x.trans hx, hclosing.scale.trans hscale⟩

end

end

/-! ## A norm from before a stalled retry -/

/-- Is the norm the one at the point of the block, with the residual scales of the block? -/
def tellsNorm (F : Vector Float 1 → Except EvalFailure (Vector Float 1)) (norm : Float)
    (b : Block Float Unit 1) : Bool :=
  match F b.session.x with
  | .ok f =>
    decide (norm = scaledNorm f b.session.work.residualScale) ||
      decide (norm = abs (getElem f 0 Nat.zero_lt_one *
        getElem b.session.work.residualScale 0 Nat.zero_lt_one))
  | .error _ => false

theorem Measured.tells {F : Vector Float 1 → Except EvalFailure (Vector Float 1)} {norm : Float}
    {b : Block Float Unit 1} (h : Measured F norm b.session) : tellsNorm F norm b = true := by
  obtain ⟨f, hf, _, hnorm⟩ := h
  unfold tellsNorm
  rw [hf]
  obtain hnorm | ⟨_, hnorm⟩ := hnorm
  · simp [hnorm]
  · simp [hnorm]

/-- A block whose residual falls to almost zero below one half. -/
def ledgeBlock : Block Float Unit 1 :=
  Block.pointwise { Options.standard with maxIterations := 1 } (.singleton 1) ledge

set_option maxRecDepth 100000 in
/-- The first attempt succeeds on the ledge; the retry moves on and stops short with other scales, and
the norm of the first attempt is reported. -/
theorem solve_reports_norm_ledge :
    ∃ norm u attempt, verdict? ledgeBlock.solve.1 = some (norm, none) ∧
      ¬ Measured ledge norm ledgeBlock.solve.2.session ∧
      prelude ledgeBlock.problem ledgeBlock.session = .ok () u ∧
      attempt.record.residualNorm = norm ∧
      StalledAfter ledgeBlock.problem u ledgeBlock.solve.2.session attempt := by
  have hverdict : (verdict? ledgeBlock.solve.1).any (fun (norm, reason) =>
      decide (reason = none) && !tellsNorm ledge norm ledgeBlock.solve.2) = true := by decide +kernel
  obtain ⟨⟨norm, reason⟩, hr, htest⟩ := (Option.any_eq_true _ _).1 hverdict
  obtain ⟨rfl, hmisses⟩ : reason = none ∧ tellsNorm ledge norm ledgeBlock.solve.2 = false := by
    simpa using htest
  have hlies : ¬ Measured ledge norm ledgeBlock.solve.2.session := fun h => by
    rw [Measured.tells h] at hmisses
    cases hmisses
  have hsolve : ledgeBlock.solve = (ledgeBlock.solve.1, ledgeBlock.solve.2) := rfl
  obtain hmeasured | ⟨_, u, attempt, hprelude, hnorm, hexception⟩ | ⟨hreason, _⟩ :=
    solve_reports_norm (F := ledge) rfl (fun _ _ => rfl) hsolve hr
  · exact absurd hmeasured hlies
  · refine ⟨norm, u, attempt, hr, hlies, hprelude, hnorm, hexception.resolve_left ?_⟩
    rintro ⟨_, _, _, _, _, _, _, _, hmode | hmode, _⟩
    · cases hmode
    · cases hmode
  · cases hreason

end AlgebraicLoop
