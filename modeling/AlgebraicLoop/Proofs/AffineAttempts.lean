import AlgebraicLoop.Proofs.AffineLoops
import AlgebraicLoop.Proofs.InsideBounds
import AlgebraicLoop.Proofs.InspectedLinearBlocks
import AlgebraicLoop.Proofs.RunVerdicts

/-!
# Attempts on affine loops

Without rounding the first full step of an attempt leads to the root of an affine loop, where the
merit is zero. The slope along the step is minus twice the merit, so the search accepts it as it is,
whatever the scales are. An attempt takes no other step: it may be over before the search, or the step
may be too short to be tried.

* `downhillSlope_step`, `decreasesEnough_step`: merit and slope along the full step;
* `prepareJacobian_affine`, `computeStep_affine`: the first iteration up to its step;
* `search_affine`: the search along the step;
* `runDamped_affine`: the attempt.
-/

namespace AlgebraicLoop
set_option autoImplicit false

open Exact

section
variable {K : Type} [Field K] [LinearOrder K] [IsStrictOrderedRing K] [SquareRoot K] {n : Nat}

/-! ## Merits -/

/-- The slope along the full step is minus twice the merit. -/
theorem downhillSlope_step {A : Fin n → Fin n → K} {r p : Fin n → K}
    (hp : ∀ i, ∑ j, A i j * p j = -r i) (w : Fin n → K) :
    downhillSlope (ofMatrix A) (ofField r) (ofField w) (ofField p) =
      finite (-∑ i, (r i * w i) * (r i * w i)) := by
  have hsum : 0 ≤ ∑ i, (r i * w i) * (r i * w i) :=
    Finset.sum_nonneg fun i _ => mul_self_nonneg _
  unfold downhillSlope
  dsimp only
  rw [meritSlope_step hp, zero_eq]
  split
  · next h =>
    obtain h | h := h
    · have hle : (0 : K) ≤ -∑ i, (r i * w i) * (r i * w i) := h
      congr 1
      linarith
    · cases h
  · rfl

/-- The full step brings the merit down enough. -/
theorem decreasesEnough_step {A : Fin n → Fin n → K} {r p : Fin n → K}
    (hp : ∀ i, ∑ j, A i j * p j = -r i) (w : Fin n → K) :
    decreasesEnough (merit (ofField r) (ofField w)) (merit (ofField (0 : Fin n → K)) (ofField w))
      (downhillSlope (ofMatrix A) (ofField r) (ofField w) (ofField p)) 1 = true := by
  have hsum : 0 ≤ ∑ i, (r i * w i) * (r i * w i) :=
    Finset.sum_nonneg fun i _ => mul_self_nonneg _
  have hzero : merit (ofField (0 : Fin n → K)) (ofField w) = finite 0 := by
    rw [merit_ofField]
    simp
  unfold decreasesEnough sufficientDecrease
  rw [hzero, downhillSlope_step hp, merit_ofField, scientific_eq, one_eq, finite_mul, finite_mul,
    finite_add]
  refine decide_eq_true (finite_le_finite.2 ?_)
  norm_num
  linarith

end

/-! ## The first iteration -/

section
variable {α σ τ : Type} [Scalar α] {n : Nat} {P : Problem α σ n} {s t : Session α σ n}

/-- What a step is searched with. -/
def Session.bearings (b : σ → τ) (s : Session α σ n) :
    (Vector α n × τ) × (Vector α n × Vector α n) × Bool :=
  ((s.x, b s.model), (s.work.residualScale, s.work.variableScale),
    s.work.flags.useSteepestDescent)

theorem bearings_of_grounds {b : σ → τ} (h : t.grounds b = s.grounds b) :
    t.bearings b = s.bearings b := (congrArg (fun u => u.bearings id) h :)

omit [Scalar α] in
theorem bearings_of_akin {b : σ → τ} (h : Akin s t) : t.bearings b = s.bearings b := by
  obtain ⟨o, notices, rfl⟩ := h.exists_refit
  rfl

/-- A Jacobian that can change all the time is evaluated in the first iteration. -/
theorem prepareJacobian_first (hvariability : P.variability = .continuous) (hs : ¬ s.Ready)
    (x f : Vector α n) : prepareJacobian P 1 x f s = (do
      match ← evaluateJacobian P x f with
      | .ok () => pure (.ok true)
      | .error mishap => pure (.error mishap) : Action α σ n (Except Mishap Bool)) s := by
  obtain ⟨husable, hagain, _⟩ | ⟨_, hrun⟩ := prepareJacobian_opening P x f s
  · obtain ⟨hcurrent, hunforced⟩ := Bool.and_eq_true_iff.1 husable
    have hunforced : s.work.flags.forceNewJacobian = false := by simpa using hunforced
    obtain hpoint | hreusable := hagain
    · exact absurd ⟨hcurrent, hpoint, hunforced⟩ hs
    · rw [hvariability] at hreusable
      cases hreusable
  · exact hrun

omit [Scalar α] in
/-- A factorization that was made before the Jacobian was renewed is not one of it. -/
theorem isFactored_renewed (h : s.work.toMemory.Timely) :
    s.renewed.work.isFactored = false := by
  unfold Workspace.isFactored
  have hold : (s.work.factoredGeneration == some (s.work.generation + 1)) = false := by
    refine beq_eq_false_iff_ne.2 fun heq => ?_
    have hle := h.dated _ heq
    omega
  change (s.work.factoredGeneration == some (s.work.generation + 1) && _) = false
  rw [hold]
  rfl

end

section
variable {K : Type} [Field K] [LinearOrder K] [IsStrictOrderedRing K] [SquareRoot K] {σ : Type}
  {n : Nat} {A : Fin n → Fin n → K} {b : σ → Fin n → K} {P : Problem (Exact K) σ n}
  {s : Session (Exact K) σ n} {v h w d p r : Fin n → K} {lu : LU (Exact K) n}
  {tol : Tolerances (Exact K)}

/-- The marks of the session are right: no factorization is newer than the Jacobian, and a Jacobian
that is marked as evaluated at the point is the matrix of the loop, with the factorization that is
marked as one of it. -/
structure Session.Truthful (A : Fin n → Fin n → K) (s : Session (Exact K) σ n) : Prop where
  timely : s.work.toMemory.Timely
  jacobian : s.Ready → s.work.jacobian = ofMatrix A
  direct : s.Ready → s.Direct

theorem prepareJacobian_affine (hP : P.model.Affine A b) (hvariability : P.variability = .continuous)
    (hs : s.Truthful A) (hpattern : s.work.pattern = none)
    (hbounds : ∀ j : Fin n, s.lower[j] < s.upper[j]) (hmoves : Moves P s.work.variableScale v h)
    (hsure : s.Ready ∨ Sure P h) :
    ∃ t, prepareJacobian P 1 (ofField v) (ofField (affine A (b s.model) v)) s = .ok (.ok true) t ∧
      t.work.jacobian = ofMatrix A ∧ t.Direct ∧ t.work.premarkedSingular = false ∧
        t.bearings b = s.bearings b := by
  by_cases hready : s.Ready
  · exact ⟨s, prepareJacobian_ready hready 1 _ _, hs.jacobian hready, hs.direct hready,
      hs.timely.unmarked, rfl⟩
  · obtain ⟨t, hrun, hJ, hst⟩ | ⟨hunsure, _⟩ :=
      evaluateJacobian_affine hP hpattern hbounds hmoves
    · refine ⟨t, ?_, hJ, fun hfactored => ?_, ?_, ?_⟩
      · rw [prepareJacobian_first hvariability hready, bind_ok hrun]
        rfl
      · have hsame : t.work.isFactored = s.renewed.work.isFactored :=
          (congrArg (fun u => u.work.isFactored) hst :)
        rw [hsame, isFactored_renewed hs.timely] at hfactored
        cases hfactored
      · exact (congrArg (fun u => u.work.premarkedSingular) hst :).trans hs.timely.unmarked
      · exact (bearings_of_grounds hst).trans rfl
    · exact (hsure.elim hready hunsure).elim

omit [IsStrictOrderedRing K] in
/-- An accepted factorization is taken for what it is. -/
theorem secureFactors_accepted (hlu : LU.factor (ofMatrix A) = .ok lu)
    (hJ : s.work.jacobian = ofMatrix A) (hdirect : s.Direct)
    (hunmarked : s.work.premarkedSingular = false) :
    ∃ t, secureFactors factorize s = .ok true t ∧ t.work.factorization = .lu lu ∧ Akin s t := by
  have hfactors : directFactors s.work.jacobian = .lu lu := by
    unfold directFactors
    rw [hJ, hlu]
  cases hfactored : s.work.isFactored with
  | true =>
    exact ⟨s, secureFactors_kept hfactored, (hdirect hfactored).trans hfactors, Akin.refl s⟩
  | false =>
    rw [secureFactors_due hfactored]
    obtain ⟨usable, t, hrun, hstored, hfactorization | ⟨_, refusal, hrefusal⟩⟩ :=
      (factorize_stored hunmarked).exists_ok
    · have hlu' : t.work.factorization = .lu lu := hfactorization.trans hfactors
      have husable : usable = true := by rw [hstored.present, hlu']; rfl
      subst husable
      have hdated : Akin s s.dated := rfl
      exact ⟨t, hrun, hlu', hdated.trans hstored.akin⟩
    · rw [hJ, hlu] at hrefusal
      cases hrefusal

/-- The step of an affine loop leads to its root. -/
theorem computeStep_affine (hlu : LU.factor (ofMatrix A) = .ok lu)
    (hJ : s.work.jacobian = ofMatrix A) (hdirect : s.Direct)
    (hunmarked : s.work.premarkedSingular = false) (r : Fin n → K) (stepTolerance : Exact K) :
    ∃ p t, computeStep P (ofField r) stepTolerance s = .ok (some (ofField p, .newton)) t ∧
      (∀ i, ∑ j, A i j * p j = -r i) ∧ Akin s t := by
  obtain ⟨t, hrun, hfactorization, hakin⟩ := secureFactors_accepted hlu hJ hdirect hunmarked
  obtain ⟨p, hp, hsolves⟩ := factor_solve hlu fun i => -r i
  have hfinite : allFinite (ofField p) = true := allFinite_iff.2 ⟨p, rfl⟩
  refine ⟨p, t, ?_, hsolves, hakin⟩
  rw [computeStep_eq, bind_ok hrun]
  unfold stepByFactors factoredStep?
  rw [get_bind_apply, if_pos rfl, hfactorization]
  dsimp only
  rw [map_neg_ofField, hp, hfinite]
  rfl

/-! ## The search along the step -/

theorem lt_of_one_lt_div {m : K} {y : Exact K} (hm : 0 < m) (h : 1 < y / finite m) :
    finite m < y := by
  rw [one_eq] at h
  cases y with
  | finite c =>
    rw [finite_div _ hm.ne', finite_lt_finite, one_lt_div hm] at h
    exact finite_lt_finite.2 h
  | posInfinity => exact ⟨trivial, id⟩
  | negInfinity =>
    have hquotient : (negInfinity / finite m : Exact K) = negInfinity := by
      change ofSign ((-1) * if m < 0 then -1 else 1) = _
      rw [if_neg hm.not_gt]
      rfl
    rw [hquotient] at h
    exact h.1.elim
  | nan => exact h.1.elim

omit [IsStrictOrderedRing K] in
theorem along_ofField (v p : Fin n → K) :
    along (ofField v) (ofField p) 1 = ofField fun i => v i + p i := by
  unfold along
  rw [one_eq]
  exact zipWith_ofField fun i => by rw [finite_mul, finite_add, one_mul]

/-- The search takes the full step, if the step is not too short to be tried. -/
theorem search_affine (tol : Tolerances (Exact K)) (hP : P.model.Affine A b)
    {q : Heading (Exact K) n} (hq : q.step = ofField p)
    (hp : ∀ i, ∑ j, A i j * p j = -affine A (b s.model) v i) (hp0 : p ≠ 0)
    (hJ : s.work.jacobian = ofMatrix A) (hw : s.work.residualScale = ofField w)
    (hd : s.work.variableScale = ofField d) (hdpos : ∀ i, 0 < d i) :
    q.length (ofField v) s < tol.step ∧
        q.search P tol (ofField v) (ofField (affine A (b s.model) v)) s =
          .ok (.error .stepTooSmall) (q.facing s) ∨
      ∃ t, q.search P tol (ofField v) (ofField (affine A (b s.model) v)) s =
          .ok (.ok ⟨1, ofField fun i => v i + p i, ofField 0⟩) t ∧
        t.bearings b = s.bearings b := by
  obtain ⟨m, hm, hnonneg, hzero⟩ := relativeLength_zero hdpos p v
  have hlength : q.length (ofField v) s = finite m := by
    unfold Heading.length
    rw [hq, hd, hm]
  have hpos : 0 < m := lt_of_le_of_ne hnonneg fun h => hp0 (hzero.1 h.symm)
  have hnot : ¬ ((finite m : Exact K) == 0) = true := by
    rw [zero_eq]
    exact fun hbeq => hpos.not_ge (beq_iff.1 hbeq).1
  rw [Heading.search_eq, hlength, if_neg hnot]
  unfold backtrack
  by_cases hshort : (1 : Exact K) < tol.step / finite m
  · rw [if_pos hshort]
    exact .inl ⟨lt_of_one_lt_div hpos hshort, rfl⟩
  · rw [if_neg hshort, hq, along_ofField]
    obtain ⟨answer, t, hrun, hst, hanswer⟩ :=
      evaluate_affine hP (fun i => v i + p i) (q.facing s)
    subst hanswer
    have hroot : affine A (b (q.facing s).model) (fun i => v i + p i) = 0 := affine_root hp
    refine .inr ⟨t, ?_, (bearings_of_grounds hst).trans rfl⟩
    dsimp only
    rw [bind_ok hrun]
    dsimp only
    rw [hroot, hJ, hw, if_pos (decreasesEnough_step hp w)]
    rfl

/-! ## The attempt -/

/-- An attempt on the loop of `A` and `b` that starts in `s` at `v`, with residual scales `w`, scales
`d` of the unknowns and the relative increment `δ` of difference quotients. Bounds are not enforced,
and the Jacobian can change all the time. -/
structure AffineAttempt (P : Problem (Exact K) σ n) (A : Fin n → Fin n → K) (b : σ → Fin n → K)
    (s : Session (Exact K) σ n) (v w d : Fin n → K) (δ : K) : Prop where
  model : P.model.Affine A b
  variability : P.variability = .continuous
  unconfined : P.options.enforceBounds = false
  bounds : ∀ j : Fin n, s.lower[j] < s.upper[j]
  point : s.x = ofField v
  residualScale : s.work.residualScale = ofField w
  residualScale_pos : ∀ i, 0 < w i
  variableScale : s.work.variableScale = ofField d
  variableScale_pos : ∀ i, 0 < d i
  /-- Columns are not differenced in groups. -/
  pattern : s.work.pattern = none
  truthful : s.Truthful A
  differenceStep : P.options.differenceStep = finite δ

/-- An attempt that starts in `s` at `v` and ends in `t`, where the full step is `p`. -/
inductive OneStep (P : Problem (Exact K) σ n) (tol : Tolerances (Exact K)) (A : Fin n → Fin n → K)
    (b : σ → Fin n → K) (s t : Session (Exact K) σ n) (v p : Fin n → K)
    (attempt : Attempt (Exact K)) : Prop
  /-- It takes the full step, which leads to the root. -/
  | stepped (it : IterationRecord (Exact K)) :
      attempt.failure = none → attempt.record.iterations = 1 → attempt.record.trace = #[it] →
      it.damping = 1 → t.x = ofField (fun i => v i + p i) →
      affine A (b s.model) (fun i => v i + p i) = 0 → OneStep P tol A b s t v p attempt
  /-- It takes no step, since an exit test holds at the start. -/
  | settled :
      attempt.failure = none → attempt.record.iterations = 0 → attempt.record.trace = #[] →
      t.x = s.x →
      (scaledNorm (ofField (affine A (b s.model) v)) s.work.residualScale ≤ 0.01 * tol.function ∨
        relativeLength (ofField p) s.x s.work.variableScale < tol.step ∧
          (P.options.exitCriterion = .step ∨
            scaledNorm (ofField (affine A (b s.model) v)) s.work.residualScale ≤
              P.options.tolerance)) →
      OneStep P tol A b s t v p attempt
  /-- It takes no step, since the full one is too short and the residual too great to settle for. -/
  | stalled :
      attempt.failure = some .stepTooSmall → attempt.record.iterations = 0 →
      attempt.record.trace = #[] → t.x = s.x →
      relativeLength (ofField p) s.x s.work.variableScale < tol.step →
      ¬ scaledNorm (ofField (affine A (b s.model) v)) s.work.residualScale ≤ P.options.tolerance →
      OneStep P tol A b s t v p attempt

section
variable {t : Session (Exact K) σ n} {δ : K}

theorem AffineAttempt.moves (hs : AffineAttempt P A b s v w d δ) :
    ∃ h, Moves P s.work.variableScale v h ∧ (δ ≠ 0 → ∀ j, h j ≠ 0) := by
  have hsize : ∀ j : Fin n, 1 / s.work.variableScale[j] = finite (1 / d j) := by
    intro j
    rw [hs.variableScale, getElem_position, getElem_ofField, one_eq,
      finite_div _ (hs.variableScale_pos j).ne']
  refine ⟨_, moves_of_sizes hsize hs.differenceStep v, fun hδ j => ?_⟩
  have hpos : 0 < max |v j| (1 / d j) :=
    lt_max_of_lt_right (one_div_pos.2 (hs.variableScale_pos j))
  have hmove : max |v j| (1 / d j) * δ ≠ 0 := mul_ne_zero hpos.ne' hδ
  split
  · exact neg_ne_zero.2 hmove
  · exact hmove

omit [IsStrictOrderedRing K] in
/-- Without bounds a step is searched along as it is. -/
theorem searchDirection_free (hfree : P.options.enforceBounds = false)
    (hs : s.work.flags.useSteepestDescent = false) (x f step : Vector (Exact K) n)
    (kind : StepKind) : searchDirection P false x f step kind s = .ok (step, kind) s := by
  unfold searchDirection boundedStep
  rw [get_bind_apply, hfree, hs]
  rfl

/-- The first iteration comes to the step that leads to the root. -/
theorem heading_affine (tol : Tolerances (Exact K)) (hs : AffineAttempt P A b s v w d δ)
    (hsure : s.Ready ∨ P.derives = true ∨ δ ≠ 0) (hlu : LU.factor (ofMatrix A) = .ok lu)
    (hcleared : s.work.flags.useSteepestDescent = false)
    (tighten : Bool) (norm : Exact K) (record : RunRecord (Exact K)) :
    ∃ p t, heading P tol false tighten 1 (ofField (affine A (b s.model) v)) norm record s =
        .ok (.inr ⟨true, norm, ofField p, .newton⟩) t ∧
      (∀ i, ∑ j, A i j * p j = -affine A (b s.model) v i) ∧ t.work.jacobian = ofMatrix A ∧
        t.bearings b = s.bearings b := by
  obtain ⟨h, hmoves, hne⟩ := hs.moves
  obtain ⟨t, ht, hJ, hdirect, hunmarked, hst⟩ := prepareJacobian_affine hs.model hs.variability
    hs.truthful hs.pattern hs.bounds hmoves (hsure.imp_right (Or.imp_right hne))
  obtain ⟨p, u, hu, hp, htu⟩ := computeStep_affine hlu hJ hdirect hunmarked
    (affine A (b s.model) v) tol.step
  have hsu : u.bearings b = s.bearings b := (bearings_of_akin htu).trans hst
  have hJu : u.work.jacobian = t.work.jacobian := by
    obtain ⟨o, notices, rfl⟩ := htu.exists_refit
    rfl
  have hfree := searchDirection_free hs.unconfined
    ((congrArg (fun q => q.2.2) hsu :).trans hcleared) (ofField v) (ofField (affine A (b s.model) v))
    (ofField p) .newton
  refine ⟨p, u, ?_, hp, hJu.trans hJ, hsu⟩
  -- In the first iteration the residual scales are not tightened.
  have hnorm : tightenedNorm P tighten 1 true (ofField v) (ofField (affine A (b s.model) v)) norm t =
      .ok norm t := by
    unfold tightenedNorm tightensNow
    rw [if_neg (by simp)]
    rfl
  unfold heading
  rw [get_bind_apply, hs.point, bind_ok ht]
  dsimp only
  rw [bind_ok hnorm, bind_ok hu]
  dsimp only
  rw [bind_ok hfree]
  rfl

omit [IsStrictOrderedRing K] in
/-- The residual at the start leaves the attempt as it is. -/
theorem AffineAttempt.evaluated (hs : AffineAttempt P A b s v w d δ) {f : Vector (Exact K) n}
    {answer : Except Mishap (Vector (Exact K) n)}
    (hrun : evaluate P (ofField v) s.cleared = .ok answer t)
    (hst : t.grounds b = s.cleared.grounds b) :
    AffineAttempt P A b (t.normed f) v w d δ ∧ (t.normed f).stock = s.stock := by
  have hcleared : t.stock = s.cleared.stock := ((closed_stock P).residual (ofField v)).ok hrun
  have hstock : (t.normed f).stock = s.stock := hcleared
  have hmarks : (t.normed f).marks = s.marks :=
    congrArg (fun p => p.1.toMarks) hstock
  have hlower : t.lower = s.lower := (congrArg Session.lower hst :)
  have hupper : t.upper = s.upper := (congrArg Session.upper hst :)
  have hgeneration : t.work.generation = s.work.generation := congrArg Marks.generation hmarks
  have hfactored : t.work.factoredGeneration = s.work.factoredGeneration :=
    congrArg Marks.factoredGeneration hmarks
  refine ⟨?_, hstock⟩
  refine
    { model := hs.model
      variability := hs.variability
      unconfined := hs.unconfined
      bounds := fun j => ?_
      point := (congrArg Session.x hst :).trans hs.point
      residualScale := (congrArg (fun u => u.work.residualScale) hst :).trans hs.residualScale
      residualScale_pos := hs.residualScale_pos
      variableScale := (congrArg (fun u => u.work.variableScale) hst :).trans hs.variableScale
      variableScale_pos := hs.variableScale_pos
      pattern := (congrArg (fun u => u.work.pattern) hst :).trans hs.pattern
      truthful := ⟨⟨fun g hg => ?_, ?_⟩, fun hready => ?_, fun hready => ?_⟩
      differenceStep := hs.differenceStep }
  · change t.lower[j] < t.upper[j]
    rw [hlower, hupper]
    exact hs.bounds j
  · change g ≤ t.work.generation
    rw [hgeneration]
    exact hs.truthful.timely.dated g (hfactored.symm.trans hg)
  · exact (congrArg (fun u => u.work.premarkedSingular) hst :).trans hs.truthful.timely.unmarked
  · exact (congrArg Prod.snd hstock :).trans (hs.truthful.jacobian (hready.of_stock hstock.symm))
  · exact (hs.truthful.direct (hready.of_stock hstock.symm)).of_stock hstock

omit [SquareRoot K] in
theorem percent_nonneg [SquareRoot K] {x : Exact K} (h : 0 ≤ x) : 0 ≤ 0.01 * x := by
  rw [percent_eq]
  exact finite_mul_nonneg (by norm_num) h

omit [IsStrictOrderedRing K] in
/-- What an attempt comes to does not depend on more of its start than where it is, and in which
scales. -/
theorem OneStep.of_start {u : Session (Exact K) σ n} {attempt : Attempt (Exact K)}
    (h : OneStep P tol A b u t v p attempt) (hx : u.x = s.x) (hmodel : b u.model = b s.model)
    (hw : u.work.residualScale = s.work.residualScale)
    (hd : u.work.variableScale = s.work.variableScale) : OneStep P tol A b s t v p attempt := by
  cases h with
  | stepped it hfailure hone htrace hdamping hpoint hroot =>
    exact .stepped it hfailure hone htrace hdamping hpoint (by rwa [← hmodel])
  | settled hfailure hnone htrace hpoint htest =>
    rw [hmodel, hw, hd, hx] at htest
    exact .settled hfailure hnone htrace (hpoint.trans hx) htest
  | stalled hfailure hnone htrace hpoint hshort hlarge =>
    rw [hx, hd] at hshort
    rw [hmodel, hw] at hlarge
    exact .stalled hfailure hnone htrace (hpoint.trans hx) hshort hlarge

/-- The search of the first iteration ends the attempt. -/
theorem searchAndMove_affine (hP : P.model.Affine A b) {q : Heading (Exact K) n}
    {record : RunRecord (Exact K)} (hnone : record.iterations = 0) (hempty : record.trace = #[])
    (hfresh : q.fresh = true) (hq : q.step = ofField p)
    (hp : ∀ i, ∑ j, A i j * p j = -affine A (b s.model) v i) (hp0 : p ≠ 0)
    (hJ : s.work.jacobian = ofMatrix A) (hx : s.x = ofField v)
    (hw : s.work.residualScale = ofField w) (hd : s.work.variableScale = ofField d)
    (hdpos : ∀ i, 0 < d i) (htol : 0 ≤ tol.function)
    (hnorm : q.norm = scaledNorm (ofField (affine A (b s.model) v)) s.work.residualScale) :
    ∃ attempt t, searchAndMove P tol 1 q.fresh (ofField v) (ofField (affine A (b s.model) v)) q.norm
        record q.step q.kind s = .ok (.over attempt) t ∧ OneStep P tol A b s t v p attempt := by
  obtain ⟨hshort, hsearch⟩ | ⟨t, hsearch, hst⟩ := search_affine tol hP hq hp hp0 hJ hw
    hd hdpos
  · rw [searchAndMove_failed hsearch, if_neg (by simp [hfresh])]
    have hlength : relativeLength (ofField p) s.x s.work.variableScale < tol.step := by
      rw [hx, ← hq]
      exact hshort
    by_cases hsettles : settlesFor P.options .stepTooSmall q.norm = true
    · rw [if_pos hsettles]
      refine ⟨_, _, rfl, .settled rfl hnone hempty rfl (.inr ⟨hlength, ?_⟩)⟩
      rw [← hnorm]
      simpa [settlesFor] using hsettles
    · rw [if_neg hsettles]
      refine ⟨_, _, rfl, .stalled rfl hnone hempty rfl hlength fun hle => hsettles ?_⟩
      rw [← hnorm] at hle
      simp [settlesFor, hle]
  · have hscale : t.work.residualScale = ofField w :=
      (congrArg (fun q => q.2.1.1) hst :).trans hw
    have hzero : scaledNorm (ofField (0 : Fin n → K)) t.work.residualScale ≤ tol.function := by
      rw [hscale, scaledNorm_ofField]
      obtain ⟨m, hm, _, _, hm0⟩ := maxNorm_ofField fun i => (0 : Fin n → K) i * w i
      rw [hm, hm0.2 fun i => zero_mul (w i), ← zero_eq]
      exact htol
    rw [searchAndMove_found hsearch]
    unfold verdictAfterStep
    rw [if_pos hzero]
    let a : Accepted (Exact K) n := ⟨1, ofField fun i => v i + p i, ofField 0⟩
    refine ⟨_, _, rfl, .stepped (q.stride 1 (ofField v) s t a) rfl ?_ ?_ rfl rfl (affine_root hp)⟩
    · exact congrArg (· + 1) hnone
    · exact congrArg (fun trace => trace.push (q.stride 1 (ofField v) s t a)) hempty

/-- An attempt on an affine loop takes one step to the root, or takes no step: an exit test holds at
the start already, or the full step is too short to be tried and the residual too great to settle
for. -/
theorem runDamped_affine (hs : AffineAttempt P A b s v w d δ) (hlu : LU.factor (ofMatrix A) = .ok lu)
    (hsure : s.Ready ∨ P.derives = true ∨ δ ≠ 0) (htol : 0 ≤ tol.function)
    (hiterations : 1 ≤ P.options.maxIterations) :
    ∃ p attempt t, runDamped P tol false s = .ok attempt t ∧
      (∀ i, ∑ j, A i j * p j = -affine A (b s.model) v i) ∧ OneStep P tol A b s t v p attempt := by
  obtain ⟨_, t, hrun, hst, rfl⟩ := evaluate_affine hs.model v s.cleared
  obtain ⟨r, hr⟩ : ∃ r, affine A (b s.model) v = r := ⟨_, rfl⟩
  have hrun : evaluate P (ofField v) s.cleared = .ok (.ok (ofField r)) t := by
    rw [← hr]
    exact hrun
  obtain ⟨hu, hstock⟩ := hs.evaluated (f := ofField r) hrun hst
  have hmodel : b (t.normed (ofField r)).model = b s.model := (congrArg Session.model hst :)
  have hscale : t.work.residualScale = s.work.residualScale :=
    (congrArg (fun u => u.work.residualScale) hst :)
  rw [runDamped_apply, hs.point, hrun]
  dsimp only
  rw [hscale]
  by_cases hsmall : scaledNorm (ofField r) s.work.residualScale ≤ 0.01 * tol.function
  · -- The full step is not computed, but there is one.
    obtain ⟨p, _, hp⟩ := factor_solve hlu fun i => -r i
    rw [if_pos hsmall, hr]
    refine ⟨p, _, _, rfl, hp, .settled rfl rfl rfl (congrArg Session.x hst :) (.inl ?_)⟩
    rw [hr]
    exact hsmall
  · rw [if_neg hsmall]
    obtain ⟨budget, hbudget⟩ := Nat.exists_eq_add_of_le' hiterations
    obtain ⟨p, y, hy, hp, hJ, hyu⟩ := heading_affine tol hu
      (hsure.imp_left fun hready => hready.of_stock hstock) hlu
      (congrArg (fun u => u.work.flags.useSteepestDescent) hst :)
      (tightensScales P.options s.work) (scaledNorm (ofField r) s.work.residualScale)
      (t.blankRecord (ofField r))
    have hx : y.x = s.x := (congrArg (fun q => q.1.1) hyu :).trans (congrArg Session.x hst :)
    have hymodel : b y.model = b s.model := (congrArg (fun q => q.1.2) hyu :).trans hmodel
    have hw : y.work.residualScale = s.work.residualScale :=
      (congrArg (fun q => q.2.1.1) hyu :).trans hscale
    have hd : y.work.variableScale = s.work.variableScale :=
      (congrArg (fun q => q.2.1.2) hyu :).trans (congrArg (fun u => u.work.variableScale) hst :)
    have hres : affine A (b y.model) v = r := by rw [hymodel, hr]
    -- A step that is none would leave a residual of zero, which the first test lets pass.
    have hp0 : p ≠ 0 := by
      rintro rfl
      have hzero : r = 0 := by
        funext i
        have hi := hp i
        rw [hmodel, hr] at hi
        simpa using hi.symm
      obtain ⟨m, hm, _, hm0⟩ := scaledNorm_zero hs.residualScale_pos r
      rw [hs.residualScale, hm, hm0.2 hzero, ← zero_eq] at hsmall
      exact hsmall (percent_nonneg htol)
    let q : Heading (Exact K) n :=
      ⟨true, scaledNorm (ofField r) s.work.residualScale, ofField p, .newton⟩
    have hempty : (t.blankRecord (ofField r)).trace = #[] := rfl
    obtain ⟨attempt, z, hz, hends⟩ := searchAndMove_affine (s := y) (q := q) hs.model rfl hempty rfl
      rfl (by rw [hymodel, ← hmodel]; exact hp) hp0 hJ (hx.trans hs.point)
      (hw.trans hs.residualScale) (hd.trans hs.variableScale) hs.variableScale_pos htol
      (by rw [hres, hw])
    rw [hres, ← hu.point] at hz
    rw [hmodel, hr] at hy
    have hiterate := (iterateDamped_apply hy).trans hz
    refine ⟨p, attempt, z, ?_, by rw [← hmodel]; exact hp, hends.of_start hx hymodel hw hd⟩
    rw [hbudget]
    unfold loopDamped
    rw [bind_ok hiterate]
    rfl

end

end

/-! ## A loop of two unknowns -/

def pairMatrix : Fin 2 → Fin 2 → ℚ := ![![2, 1], ![1, 3]]

/-- The loop of `pairMatrix`, differenced with the relative increment `δ` and solved to the tolerance
`τ`. -/
def pairProblem (δ τ : ℚ) : Problem (Exact ℚ) (Fin 2 → ℚ) 2 where
  label := "loop"
  options :=
    { Options.standard with
      tolerance := finite τ
      differenceStep := finite δ
      enforceBounds := false
      exitCriterion := .residual }
  model := Model.ofMatrix pairMatrix
  auxiliaryCount := 0
  variability := .continuous

/-- A session at the origin, with different scales for each residual and each unknown. -/
def pairSession : Session (Exact ℚ) (Fin 2 → ℚ) 2 :=
  { Session.fresh 2 ![3, 5] with
    work :=
      { Workspace.fresh 2 with
        residualScale := ofField ![1, 2]
        variableScale := ofField ![1, 1 / 2] } }

theorem pairAttempt (δ τ : ℚ) :
    AffineAttempt (pairProblem δ τ) pairMatrix id pairSession 0 ![1, 2] ![1, 1 / 2] δ where
  model := Model.ofMatrix_affine pairMatrix
  variability := rfl
  unconfined := rfl
  bounds := by decide +kernel
  point := by decide +kernel
  residualScale := rfl
  residualScale_pos := by decide +kernel
  variableScale := rfl
  variableScale_pos := by decide +kernel
  pattern := rfl
  truthful :=
    { timely :=
        { dated := fun _ h => by cases h
          unmarked := rfl }
      jacobian := fun h => by cases h.1
      direct := fun h => by cases h.1 }
  differenceStep := rfl

theorem pairMatrix_accepted : ∃ lu, LU.factor (ofMatrix pairMatrix) = .ok lu := by
  have hok : (LU.factor (ofMatrix pairMatrix)).toOption.isSome = true := by decide +kernel
  cases h : LU.factor (ofMatrix pairMatrix) with
  | ok lu => exact ⟨lu, rfl⟩
  | error _ =>
    rw [h] at hok
    cases hok

def pairTolerances (δ τ : ℚ) : Tolerances (Exact ℚ) := (pairProblem δ τ).options.firstTolerances 2

/-- Its first attempt. -/
def pairRun (δ τ : ℚ) : Action (Exact ℚ) (Fin 2 → ℚ) 2 (Attempt (Exact ℚ)) :=
  runDamped (pairProblem δ τ) (pairTolerances δ τ) false

theorem runDamped_affine_pair :
    ∃ p attempt t, pairRun 1 0 pairSession = .ok attempt t ∧
      (∀ i, ∑ j, pairMatrix i j * p j = -affine pairMatrix ![3, 5] 0 i) ∧
        OneStep (pairProblem 1 0) (pairTolerances 1 0) pairMatrix id pairSession t 0 p attempt := by
  obtain ⟨lu, hlu⟩ := pairMatrix_accepted
  exact runDamped_affine (pairAttempt 1 0) hlu (.inr (.inr (by decide))) (by decide +kernel)
    (by decide)

set_option maxRecDepth 100000 in
/-- With an increment of zero no quotient is defined. With a tolerance below zero the root itself is
not good enough. -/
theorem runDamped_affine_refused :
    (∀ δ τ, AffineAttempt (pairProblem δ τ) pairMatrix id pairSession 0 ![1, 2] ![1, 1 / 2] δ ∧
      1 ≤ (pairProblem δ τ).options.maxIterations) ∧
    (∃ lu, LU.factor (ofMatrix pairMatrix) = .ok lu) ∧
    (∃ attempt t, pairRun 0 1 pairSession = .ok attempt t ∧
      attempt.failure = some .jacobian) ∧
    ∃ attempt t, pairRun 1 (-1) pairSession = .ok attempt t ∧
      attempt.failure = some .stepTooSmall ∧ attempt.record.iterations = 1 := by
  have hunmoved : comesTo (pairRun 0 1) pairSession
      (fun attempt _ => attempt.failure == some .jacobian) = true := by decide +kernel
  have hstrict : comesTo (pairRun 1 (-1)) pairSession (fun attempt _ =>
      attempt.failure == some .stepTooSmall && attempt.record.iterations == 1) = true := by decide +kernel
  refine ⟨fun δ τ => ⟨pairAttempt δ τ, by change 1 ≤ 100; decide⟩, pairMatrix_accepted, ?_, ?_⟩
  · obtain ⟨attempt, t, hrun, hfails⟩ := exists_of_comesTo hunmoved
    exact ⟨attempt, t, hrun, beq_iff_eq.1 hfails⟩
  · obtain ⟨attempt, t, hrun, hfails⟩ := exists_of_comesTo hstrict
    obtain ⟨hreason, hone⟩ := Bool.and_eq_true_iff.1 hfails
    exact ⟨attempt, t, hrun, beq_iff_eq.1 hreason, beq_iff_eq.1 hone⟩

end AlgebraicLoop
