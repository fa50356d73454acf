import AlgebraicLoop.DampedRun
import AlgebraicLoop.Proofs.AffineLoops
import AlgebraicLoop.Proofs.ExactVectors
import AlgebraicLoop.Proofs.InsideBounds
import AlgebraicLoop.Proofs.SearchInBox
import AlgebraicLoop.Proofs.SolveSteps
import Mathlib.Algebra.BigOperators.Ring.Finset

/-!
# Steps that go down

Without rounding the step from a regular Jacobian goes down the merit, and so does the one from the
regularized normal equations. Their matrix is a Gram matrix with squares added on its diagonal,
whatever the rank of the Jacobian is and whatever the scales were when it was factored, and what
solves a system of such a matrix for a right-hand side never points away from it.

* `meritSlope_gradient`: the slope along a step is its product with the gradient;
* `regularizedNormal_gram`, `dampedGram_slope`: steps from the regularized normal equations;
* `scalarStep_slope`, `steepestDescent_steep`: the sign rule and the step of steepest descent;
* `computeStep_downhill`: the step of an iteration.
-/

namespace AlgebraicLoop
set_option autoImplicit false

open Exact

/-! ## The gradient of the merit -/

section
variable {K : Type} [Field K] {n : Nat}

/-- The gradient `Jᵀ W² f` of the merit. -/
def meritGradient (J : Fin n → Fin n → K) (w f : Fin n → K) (j : Fin n) : K :=
  ∑ i, J i j * (w i * w i * f i)

/-- The square of the scaled residual. -/
def scaledSquare (w f : Fin n → K) : K := ∑ i, (f i * w i) * (f i * w i)

theorem meritSlope_gradient [LinearOrder K] [SquareRoot K] (J : Fin n → Fin n → K)
    (w f p : Fin n → K) :
    meritSlope (ofMatrix J) (ofField f) (ofField w) (ofField p) =
      finite (∑ j, meritGradient J w f j * p j) := by
  rw [meritSlope_ofField]
  congr 1
  simp only [meritGradient, Finset.mul_sum, Finset.sum_mul]
  rw [Finset.sum_comm]
  refine Finset.sum_congr rfl fun j _ => Finset.sum_congr rfl fun i _ => ?_
  ring

variable [LinearOrder K] [IsStrictOrderedRing K]

theorem sum_squares_nonneg (q : Fin n → K) : 0 ≤ ∑ i, q i * q i :=
  Finset.sum_nonneg fun i _ => mul_self_nonneg (q i)

theorem scaledSquare_pos {J : Fin n → Fin n → K} {w f : Fin n → K}
    (h : meritGradient J w f ≠ 0) : 0 < scaledSquare w f := by
  apply lt_of_le_of_ne (sum_squares_nonneg fun i => f i * w i)
  intro hzero
  have hfw : ∀ i, f i * w i = 0 := fun i =>
    (Finset.sum_mul_self_eq_zero_iff ..).1 hzero.symm i (Finset.mem_univ i)
  apply h
  funext j
  refine Finset.sum_eq_zero fun i _ => ?_
  have hterm : J i j * (w i * w i * f i) = J i j * w i * (f i * w i) := by ring
  rw [hterm, hfw, mul_zero]

end

/-! ## The regularized normal equations -/

section
variable {K : Type} [Field K] {n : Nat}

/-- The product `Mᵀ M`, with the square of `d` added on its diagonal. -/
def dampedGram (M : Fin n → Fin n → K) (d : Fin n → K) (i j : Fin n) : K :=
  (∑ k, M k i * M k j) + if i = j then d i * d i else 0

theorem dampedGram_apply (M : Fin n → Fin n → K) (d p : Fin n → K) (i : Fin n) :
    ∑ j, dampedGram M d i j * p j = (∑ k, M k i * ∑ j, M k j * p j) + d i * (d i * p i) := by
  have hgram : ∑ j, (∑ k, M k i * M k j) * p j = ∑ k, M k i * ∑ j, M k j * p j := by
    simp only [Finset.sum_mul, Finset.mul_sum]
    rw [Finset.sum_comm]
    simp only [mul_assoc]
  have hdiagonal : ∑ j, (if i = j then d i * d i else 0) * p j = d i * (d i * p i) := by
    simp [mul_assoc]
  simp only [dampedGram, add_mul, Finset.sum_add_distrib]
  rw [hgram, hdiagonal]

/-- The quadratic form of the matrix is a sum of squares. -/
theorem dampedGram_form (M : Fin n → Fin n → K) (d p : Fin n → K) :
    ∑ i, p i * ∑ j, dampedGram M d i j * p j =
      (∑ k, (∑ j, M k j * p j) * ∑ j, M k j * p j) + ∑ i, d i * p i * (d i * p i) := by
  have hgram : ∀ q : Fin n → K, ∑ i, p i * ∑ k, M k i * q k = ∑ k, (∑ j, M k j * p j) * q k := by
    intro q
    simp only [Finset.mul_sum, Finset.sum_mul]
    rw [Finset.sum_comm]
    refine Finset.sum_congr rfl fun k _ => Finset.sum_congr rfl fun i _ => ?_
    ring
  simp only [dampedGram_apply, mul_add, Finset.sum_add_distrib]
  rw [hgram]
  congr 1
  refine Finset.sum_congr rfl fun i _ => ?_
  ring

variable [LinearOrder K] [IsStrictOrderedRing K]

/-- What the equations are solved by for `-g` does not point along `g`, and points against it unless
`g` is zero. -/
theorem dampedGram_slope {M : Fin n → Fin n → K} {d g p : Fin n → K}
    (hp : ∀ i, ∑ j, dampedGram M d i j * p j = -g i) :
    ∑ i, g i * p i ≤ 0 ∧ (g ≠ 0 → ∑ i, g i * p i < 0) := by
  have hslope : ∑ i, g i * p i = -((∑ k, (∑ j, M k j * p j) * ∑ j, M k j * p j) +
      ∑ i, d i * p i * (d i * p i)) := by
    rw [← dampedGram_form, ← Finset.sum_neg_distrib]
    refine Finset.sum_congr rfl fun i _ => ?_
    rw [hp]
    ring
  have hgram := sum_squares_nonneg fun k => ∑ j, M k j * p j
  have hdiagonal := sum_squares_nonneg fun i => d i * p i
  refine ⟨by linarith, fun hg => lt_of_le_of_ne (by linarith) fun hzero => hg ?_⟩
  -- A slope of zero leaves nothing of either sum, and with them goes the right-hand side.
  have hgramZero : ∑ k, (∑ j, M k j * p j) * ∑ j, M k j * p j = 0 := by linarith
  have hdiagonalZero : ∑ i, d i * p i * (d i * p i) = 0 := by linarith
  have hM : ∀ k, ∑ j, M k j * p j = 0 := fun k =>
    (Finset.sum_mul_self_eq_zero_iff ..).1 hgramZero k (Finset.mem_univ k)
  have hd : ∀ i, d i * p i = 0 := fun i =>
    (Finset.sum_mul_self_eq_zero_iff ..).1 hdiagonalZero i (Finset.mem_univ i)
  funext i
  have hi := hp i
  rw [dampedGram_apply] at hi
  simpa [hM, hd] using hi.symm

end

section
variable {K : Type} [Field K] [LinearOrder K] [SquareRoot K] {m n : Nat}

theorem chainedSum_ofField (u v : Fin n → K) :
    chainedSum ((ofField u).zip (ofField v)).toList = finite (∑ i, u i * v i) := by
  rw [zip_ofField, Fin.sum_univ_def]
  cases List.finRange n with
  | nil => exact zero_eq
  | cons i rest =>
    show (rest.map _).foldl _ (finite (u i * v i)) = _
    rw [List.foldl_map]
    exact (foldl_mulAdd u v rest _).trans (by simp)

/-- A finite sum of products has finite factors. -/
theorem isFinite_of_chainedSum {l : List (Exact K × Exact K)} (h : isFinite (chainedSum l) = true) :
    ∀ q ∈ l, isFinite q.1 = true ∧ isFinite q.2 = true := by
  cases l with
  | nil => exact nofun
  | cons q l =>
    have hfold := (foldl_finite (g := fun q : Exact K × Exact K => q.1 * q.2)
      (fun _ _ => isFinite_add.trans and_comm) l (q.1 * q.2)).1 h
    exact List.forall_mem_cons.2
      ⟨isFinite_mul.1 hfold.1, fun q hq => isFinite_mul.1 (hfold.2 q hq)⟩

theorem weightedNormal_ofMatrix {A : Mat (Exact K) m n} {w : Vector (Exact K) m}
    {M : Fin m → Fin n → K} (h : A.scaleRows w = ofMatrix M) (i j : Fin n) :
    (A.weightedNormal w)[i][j] = finite (∑ k, M k i * M k j) := by
  unfold Mat.weightedNormal
  rw [h, transpose_ofMatrix]
  simp only [Mat.ofFn, getElem_position, Vector.getElem_ofFn, getElem_ofMatrix]
  exact chainedSum_ofField _ _

/-- A normal matrix with a finite diagonal is the one of a finite matrix. -/
theorem scaleRows_finite {A : Mat (Exact K) m n} {w : Vector (Exact K) m}
    (h : ∀ i : Fin n, isFinite (A.weightedNormal w)[i][i] = true) :
    ∃ M, A.scaleRows w = ofMatrix M := by
  have hentry : ∀ (k : Fin m) (i : Fin n), ∃ a, (A.scaleRows w)[k][i] = finite a := by
    intro k i
    have hi := h i
    simp only [Mat.weightedNormal, Mat.ofFn, getElem_position, Vector.getElem_ofFn] at hi
    have hmem : ((A.scaleRows w)[k][i], (A.scaleRows w)[k][i]) ∈
        ((A.scaleRows w).transpose[i].zip (A.scaleRows w).transpose[i]).toList :=
      Vector.mem_toList_iff.2 (Vector.mem_iff_getElem.2
        ⟨k, k.isLt, by simp [Mat.transpose, Mat.column]⟩)
    exact isFinite_iff.1 (isFinite_of_chainedSum hi _ hmem).1
  choose M hM using hentry
  refine ⟨M, ?_⟩
  ext k hk i hi
  rw [getElem_ofMatrix, getElem_ofField]
  exact hM ⟨k, hk⟩ ⟨i, hi⟩

theorem getElem_regularizedNormal (u : Workspace (Exact K) n) (i j : Fin n) :
    (regularizedNormal u)[i][j] =
      if i = j then (u.jacobian.weightedNormal u.residualScale)[i][j] +
        u.variableScale[j] * u.variableScale[j]
      else (u.jacobian.weightedNormal u.residualScale)[i][j] := by
  unfold regularizedNormal Mat.ofFn
  simp only [getElem_position, Vector.getElem_ofFn]

/-- An accepted matrix of regularized normal equations is a Gram matrix with squares added on its
diagonal. -/
theorem regularizedNormal_gram [IsStrictOrderedRing K] {u : Workspace (Exact K) n} {lu : LU (Exact K) n}
    (h : LU.factor (regularizedNormal u) = .ok lu) :
    ∃ M d, regularizedNormal u = ofMatrix (dampedGram M d) := by
  obtain ⟨B, hB⟩ := factor_finite h
  have hdiagonal : ∀ i : Fin n, isFinite (u.jacobian.weightedNormal u.residualScale)[i][i] = true ∧
      isFinite u.variableScale[i] = true := by
    intro i
    have hi : isFinite (regularizedNormal u)[i][i] = true := by
      rw [hB]
      simp
    rw [getElem_regularizedNormal, if_pos rfl] at hi
    obtain ⟨hnormal, hscale⟩ := isFinite_add.1 hi
    exact ⟨hnormal, (isFinite_mul.1 hscale).1⟩
  obtain ⟨M, hM⟩ := scaleRows_finite fun i => (hdiagonal i).1
  choose d hd using fun i => isFinite_iff.1 (hdiagonal i).2
  refine ⟨M, d, ?_⟩
  ext i hi j hj
  have hentry := getElem_regularizedNormal u ⟨i, hi⟩ ⟨j, hj⟩
  rw [weightedNormal_ofMatrix hM, hd, finite_mul, finite_add] at hentry
  rw [getElem_ofMatrix, getElem_ofField]
  refine hentry.trans ?_
  unfold dampedGram
  split
  · next heq => rw [heq]
  · rw [add_zero]

end

/-! ## Steps of other kinds -/

section
variable {K : Type} [Field K] [LinearOrder K] [IsStrictOrderedRing K] [SquareRoot K] {n : Nat}
  {J : Fin n → Fin n → K} {w f p : Fin n → K}

theorem signum_finite (x : K) :
    signum (finite x : Exact K) = finite (if x < 0 then -1 else 1) := by
  have hreal : isNaN (finite x : Exact K) = false := isNaN_eq_false_iff.2 (finite_ne_nan x)
  unfold signum
  rw [hreal, one_eq]
  show (if x ≤ 0 ∧ ¬ 0 ≤ x then finite (-|(1 : K)|) else finite |(1 : K)|) = _
  rw [abs_one]
  by_cases hx : x < 0
  · rw [if_pos hx, if_pos (lt_iff_le_not_ge.1 hx)]
  · rw [if_neg hx, if_neg fun h => hx (lt_iff_le_not_ge.2 h)]

omit [SquareRoot K] in
theorem mul_sign_eq_abs (x : K) : x * (if x < 0 then -1 else 1) = |x| := by
  split
  · next h => rw [abs_of_neg h, mul_neg_one]
  · next h => rw [abs_of_nonneg (not_lt.1 h), mul_one]

/-- The slope along the step that the sign rule gives. -/
theorem scalarStep_slope (hn : n = 1) {nominal : Vector (Exact K) n}
    (hp : scalarStep nominal (ofField f) (Vector.ofFn fun i => (ofMatrix J)[i][i]) = ofField p) :
    ∑ j, meritGradient J w f j * p j ≤ 0 ∧
      (meritGradient J w f ≠ 0 → (∀ i : Fin n, nominal[i] ≠ 0) →
        ∑ j, meritGradient J w f j * p j < 0) := by
  subst hn
  have hstep : (0.1 : Exact K) * abs nominal[0] * signum (-finite (f 0)) * signum (finite (J 0 0)) =
      finite (p 0) := by
    have h := congrArg (fun v => v[0]) hp
    simpa [scalarStep] using h
  have hnominal : isFinite (abs nominal[0]) = true :=
    (isFinite_mul.1 (isFinite_mul.1 (isFinite_mul.1 (isFinite_iff.2 ⟨_, hstep⟩)).1).1).2
  obtain ⟨a, ha⟩ : ∃ a, nominal[0] = finite a := by
    cases hcase : nominal[0] with
    | finite a => exact ⟨a, rfl⟩
    | _ =>
      rw [hcase] at hnominal
      cases hnominal
  rw [ha, abs_finite, tenth_eq, finite_neg, signum_finite, signum_finite, finite_mul, finite_mul,
    finite_mul] at hstep
  have hslope : ∑ j, meritGradient J w f j * p j =
      -(1 / 10 * |a| * (w 0 * w 0) * (|f 0| * |J 0 0|)) := by
    rw [← abs_neg (f 0), ← mul_sign_eq_abs (-f 0), ← mul_sign_eq_abs (J 0 0)]
    simp only [meritGradient, Finset.univ_unique, Finset.sum_singleton, Fin.default_eq_zero]
    rw [← Exact.finite.inj hstep]
    ring
  have hnonneg : 0 ≤ 1 / 10 * |a| * (w 0 * w 0) * (|f 0| * |J 0 0|) :=
    mul_nonneg (mul_nonneg (by positivity) (mul_self_nonneg _)) (by positivity)
  refine ⟨by linarith, fun hg hnominal => lt_of_le_of_ne (by linarith) fun hzero => hg ?_⟩
  have ha0 : a ≠ 0 := by
    rintro rfl
    exact hnominal 0 (ha.trans zero_eq.symm)
  have hfactors : w 0 = 0 ∨ f 0 = 0 ∨ J 0 0 = 0 := by
    rw [hslope, neg_eq_zero] at hzero
    simpa [ha0] using hzero
  funext j
  fin_cases j
  obtain h | h | h := hfactors
  all_goals simp [meritGradient, h]

omit [IsStrictOrderedRing K] in
theorem applyTranspose_weighted {u : Fin n → K} (hu : ∀ i, u i = -(w i * w i * f i)) :
    (ofMatrix J).applyTranspose (ofField u) = ofField fun j => -meritGradient J w f j := by
  rw [applyTranspose_ofMatrix]
  congr 1
  funext j
  simp only [meritGradient, ← Finset.sum_neg_distrib]
  refine Finset.sum_congr rfl fun i _ => ?_
  rw [hu, mul_neg]

omit [IsStrictOrderedRing K] in
theorem gradient_applied (J : Fin n → Fin n → K) (w f : Fin n → K) :
    (ofMatrix J).applyTranspose ((ofField w).zipWith (fun w y => -w * w * y) (ofField f)) =
      ofField fun j => -meritGradient J w f j := by
  have hweighted : (ofField w).zipWith (fun w y => -w * w * y) (ofField f) =
      ofField fun i => -w i * w i * f i := zipWith_ofField fun i => by simp
  rw [hweighted]
  exact applyTranspose_weighted fun i => by ring

omit [IsStrictOrderedRing K] in
/-- There is no step of steepest descent where the gradient is zero. -/
theorem steepestDescent_flat (h : meritGradient J w f = 0) :
    steepestDescent? (ofMatrix J) (ofField f) (ofField w) = none := by
  unfold steepestDescent?
  dsimp only
  rw [gradient_applied, h, dot_ofField]
  simp only [Pi.zero_apply, neg_zero, mul_zero, Finset.sum_const_zero, zero_eq]
  exact if_pos (.inl (beq_iff.2 ⟨le_refl (0 : K), le_refl (0 : K)⟩))

/-- Elsewhere the slope along it is minus the scaled square of the residual. -/
theorem steepestDescent_steep (h : meritGradient J w f ≠ 0) :
    ∃ p, steepestDescent? (ofMatrix J) (ofField f) (ofField w) = some (ofField p) ∧
      ∑ j, meritGradient J w f j * p j = -scaledSquare w f := by
  let g := meritGradient J w f
  let size := ∑ j, -g j * -g j
  have hsize : size ≠ 0 := fun hzero => h (funext fun j => neg_eq_zero.1
    ((Finset.sum_mul_self_eq_zero_iff ..).1 hzero j (Finset.mem_univ j)))
  refine ⟨fun j => -g j * scaledSquare w f / size, ?_, ?_⟩
  · unfold steepestDescent?
    dsimp only
    rw [gradient_applied, dot_ofField, merit_ofField, two_eq, finite_mul, if_neg]
    · congr 1
      ext j hj
      rw [Vector.getElem_map, getElem_ofField, getElem_ofField, finite_mul, finite_div _ hsize]
      congr 2
      unfold scaledSquare
      ring
    · rintro (hzero | hinfinite)
      · rw [zero_eq, beq_iff] at hzero
        exact hsize (le_antisymm hzero.1 hzero.2)
      · cases hinfinite
  · have hterm : ∀ j, g j * (-g j * scaledSquare w f / size) =
        -g j * -g j * (-scaledSquare w f / size) := fun j => by ring
    show ∑ j, g j * (-g j * scaledSquare w f / size) = _
    rw [Finset.sum_congr rfl fun j _ => hterm j, ← Finset.sum_mul]
    exact mul_div_cancel₀ _ hsize

end

/-! ## The step of an iteration -/

section
variable {α σ : Type} [Scalar α] {n : Nat} {P : Problem α σ n} {s t : Session α σ n}
  {f step : Vector α n} {stepTolerance : α} {kind : StepKind}

/-- A step is computed from a factorization of the Jacobian, the one at hand or a new one. -/
theorem computeStep_found
    (hfactors : s.work.isFactored = true → s.work.factorization.Of s.work.jacobian)
    (h : computeStep P f stepTolerance s = .ok (some (step, kind)) t) :
    t.work.factorization.Of s.work.jacobian ∧ allFinite step = true ∧
      ∃ w : Workspace α n, w.factorization = t.work.factorization ∧
        w.jacobian = s.work.jacobian ∧ w.residualScale = s.work.residualScale ∧
        factoredStep? w s.nominal f stepTolerance = some (step, kind) := by
  rw [computeStep_eq] at h
  obtain ⟨usable, u, hu, h⟩ := bind_eq_ok.1 h
  have hut : t.work.factorization = u.work.factorization :=
    ((aside_stepByFactors P f stepTolerance usable).ok h).factorization
  obtain ⟨husable, hfinite, hstep, _⟩ := stepByFactors_found h
  have hsecured : u.work.factorization.Of s.work.jacobian ∧ u.work.jacobian = s.work.jacobian ∧
      u.footing P = s.footing P := by
    obtain ⟨hfactored, _, rfl⟩ | ⟨_, hu⟩ := secureFactors_cases hu
    · exact ⟨hfactors hfactored, rfl, rfl⟩
    · have hsu := (factorize_after s).ok hu
      have hjacobian : u.work.jacobian = s.work.jacobian := hsu.jacobian
      exact ⟨hjacobian ▸ hsu.present husable, hjacobian, ((course_factorize P).ok hu).keeps⟩
  obtain ⟨hof, hjacobian, hfooting⟩ := hsecured
  have hnominal : u.nominal = s.nominal := congrArg (fun q => q.nominal) hfooting
  rw [hnominal] at hstep
  exact ⟨hut ▸ hof, hfinite, u.work, hut.symm, hjacobian,
    congrArg Footing.residualScale hfooting, hstep⟩

end

section
variable {K σ : Type} [Field K] [LinearOrder K] [IsStrictOrderedRing K] [SquareRoot K] {n : Nat}
  {J : Fin n → Fin n → K} {w f : Fin n → K} {P : Problem (Exact K) σ n}
  {s t : Session (Exact K) σ n}

/-- The slope is a number that is not positive, and negative if it is steep. -/
def Falls (steep : Prop) (slope : Exact K) : Prop :=
  ∃ a, slope = finite a ∧ a ≤ 0 ∧ (steep → a < 0)

/-- What is known of the slope along a step, by the factorization that the step was computed with.
Below the tolerance the regularized equations are not solved for the gradient. -/
structure Downhill (J : Fin n → Fin n → K) (w f : Fin n → K) (nominal : Vector (Exact K) n)
    (stepTolerance slope : Exact K) (factorization : Factorization (Exact K) n) : Prop where
  direct : ∀ lu, factorization = .lu lu →
    slope = finite (-scaledSquare w f) ∧ Falls (meritGradient J w f ≠ 0) slope
  regularized : ∀ lu, factorization = .regularized lu →
    ¬ maxNorm (ofField (meritGradient J w f)) < stepTolerance →
      Falls (meritGradient J w f ≠ 0) slope
  scalar : factorization = .scalar →
    Falls (meritGradient J w f ≠ 0 ∧ ∀ i : Fin n, nominal[i] ≠ 0) slope

theorem direct_slope {lu : LU (Exact K) n} (hlu : LU.factor (ofMatrix J) = .ok lu) (w f : Fin n → K) :
    meritSlope (ofMatrix J) (ofField f) (ofField w) (lu.solve ((ofField f).map (- ·))) =
      finite (-scaledSquare w f) := by
  obtain ⟨p, hsolve, hp⟩ := factor_solve hlu fun i => -f i
  rw [map_neg_ofField, hsolve]
  exact meritSlope_step hp w

omit [IsStrictOrderedRing K] in
theorem maxNorm_neg (u : Fin n → K) : maxNorm (ofField fun i => -u i) = maxNorm (ofField u) := by
  unfold maxNorm
  rw [← Vector.foldl_toList, ← Vector.foldl_toList, ofField_toList, ofField_toList,
    List.foldl_map, List.foldl_map]
  simp only [abs_finite, abs_neg]

omit [IsStrictOrderedRing K] in
/-- Above the tolerance the equations are solved for the gradient. -/
theorem regularizedSide_steep {v : Workspace (Exact K) n} (hJ : v.jacobian = ofMatrix J)
    (hw : v.residualScale = ofField w) {stepTolerance : Exact K}
    (hsteep : ¬ maxNorm (ofField (meritGradient J w f)) < stepTolerance) :
    regularizedSide v ((ofField f).map (- ·)) stepTolerance =
      ofField fun j => -meritGradient J w f j := by
  have hweighted : (ofField fun i => -f i).zipWith (fun y c => y * c * c) (ofField w) =
      ofField fun i => -f i * w i * w i := zipWith_ofField fun i => by simp
  have hgradient : (ofMatrix J).applyTranspose (ofField fun i => -f i * w i * w i) =
      ofField fun j => -meritGradient J w f j := applyTranspose_weighted fun i => by ring
  unfold regularizedSide
  dsimp only
  rw [hJ, hw, map_neg_ofField, hweighted, hgradient, maxNorm_neg, if_neg hsteep]

/-- The scales that the equations were set up with need not be those of the gradient. -/
theorem regularized_slope {u v : Workspace (Exact K) n} {lu : LU (Exact K) n}
    (hlu : LU.factor (regularizedNormal u) = .ok lu) (hJ : v.jacobian = ofMatrix J)
    (hw : v.residualScale = ofField w) {stepTolerance : Exact K}
    (hsteep : ¬ maxNorm (ofField (meritGradient J w f)) < stepTolerance) :
    Falls (meritGradient J w f ≠ 0) (meritSlope (ofMatrix J) (ofField f) (ofField w)
      (lu.solve (regularizedSide v ((ofField f).map (- ·)) stepTolerance))) := by
  obtain ⟨M, d, hgram⟩ := regularizedNormal_gram hlu
  rw [hgram] at hlu
  obtain ⟨p, hsolve, hp⟩ := factor_solve hlu fun j => -meritGradient J w f j
  rw [regularizedSide_steep hJ hw hsteep, hsolve, meritSlope_gradient]
  exact ⟨_, rfl, dampedGram_slope hp⟩

theorem factoredStep_downhill {v : Workspace (Exact K) n} {nominal step : Vector (Exact K) n}
    {stepTolerance : Exact K} {kind : StepKind} (hJ : v.jacobian = ofMatrix J)
    (hw : v.residualScale = ofField w) (hof : v.factorization.Of (ofMatrix J))
    (hfinite : allFinite step = true)
    (hstep : factoredStep? v nominal (ofField f) stepTolerance = some (step, kind)) :
    Downhill J w f nominal stepTolerance (meritSlope (ofMatrix J) (ofField f) (ofField w) step)
      v.factorization := by
  unfold factoredStep? at hstep
  refine ⟨fun lu hlu => ?_, fun lu hlu hsteep => ?_, fun hscalar => ?_⟩
  · rw [hlu] at hof hstep
    cases hstep
    refine ⟨direct_slope hof w f, _, direct_slope hof w f, ?_, fun hg => ?_⟩
    · exact neg_nonpos.2 (sum_squares_nonneg fun i => f i * w i)
    · exact neg_neg_iff_pos.2 (scaledSquare_pos hg)
  · rw [hlu] at hof hstep
    obtain ⟨u, _, hof⟩ := hof
    cases hstep
    exact regularized_slope hof hJ hw hsteep
  · rw [hscalar] at hof hstep
    obtain ⟨p, hp⟩ := allFinite_iff.1 hfinite
    dsimp only at hstep
    rw [hJ] at hstep
    cases hstep
    obtain ⟨hle, hlt⟩ := scalarStep_slope (w := w) hof hp
    rw [hp, meritSlope_gradient]
    exact ⟨_, rfl, hle, fun h => hlt h.1 h.2⟩

/-- A step that is computed from a factorization of the Jacobian goes down the merit, and the step of
steepest descent does wherever there is one. -/
theorem computeStep_downhill (hJ : s.work.jacobian = ofMatrix J)
    (hw : s.work.residualScale = ofField w)
    (hfactors : s.work.isFactored = true → s.work.factorization.Of s.work.jacobian)
    (stepTolerance : Exact K) (step : Vector (Exact K) n) :
    (∀ kind t, computeStep P (ofField f) stepTolerance s = .ok (some (step, kind)) t →
      Downhill J w f s.nominal stepTolerance
        (meritSlope s.work.jacobian (ofField f) s.work.residualScale step) t.work.factorization) ∧
    (meritGradient J w f = 0 → descentStep s.work (ofField f) step = step) ∧
    (meritGradient J w f ≠ 0 →
      meritSlope s.work.jacobian (ofField f) s.work.residualScale
        (descentStep s.work (ofField f) step) = finite (-scaledSquare w f)) := by
  refine ⟨fun kind t h => ?_, fun hflat => ?_, fun hsteep => ?_⟩
  · obtain ⟨hof, hfinite, v, hfactorization, hjacobian, hscale, hstep⟩ :=
      computeStep_found hfactors h
    rw [← hfactorization, hJ] at hof
    rw [← hfactorization, hJ, hw]
    exact factoredStep_downhill (hjacobian.trans hJ) (hscale.trans hw) hof hfinite hstep
  · unfold descentStep
    rw [hJ, hw, steepestDescent_flat hflat]
    rfl
  · obtain ⟨p, hp, hslope⟩ := steepestDescent_steep hsteep
    unfold descentStep
    rw [hJ, hw, hp, Option.getD_some, meritSlope_gradient, hslope]

end

/-! ## A singular Jacobian that outlived its scales -/

def twinMatrix : Fin 2 → Fin 2 → ℚ := ![![1, 1], ![1, 1]]

/-- A loop whose two residuals have the same derivatives. -/
def twinProblem : Problem (Exact ℚ) (Fin 2 → ℚ) 2 where
  label := "loop"
  options := Options.standard
  model := Model.ofMatrix twinMatrix
  auxiliaryCount := 0
  variability := .continuous

def twinSession : Session (Exact ℚ) (Fin 2 → ℚ) 2 :=
  { Session.fresh 2 ![-1, -2] with
    work := { Workspace.fresh 2 with jacobian := ofMatrix twinMatrix } }

/-- The session with other scales of the residuals. -/
def Session.rescaledBy {K σ : Type} {n : Nat} (s : Session (Exact K) σ n) (w : Fin n → K) :
    Session (Exact K) σ n :=
  { s with work := { s.work with residualScale := ofField w } }

set_option maxRecDepth 100000 in
/-- The regularized equations were set up and factored before the residuals got their scales. -/
theorem computeStep_downhill_twin :
    ∃ (s t : Session (Exact ℚ) (Fin 2 → ℚ) 2) (step : Vector (Exact ℚ) 2) (kind : StepKind)
        (lu : LU (Exact ℚ) 2),
      factorize twinSession = .ok true s ∧ (s.rescaledBy ![3, 1]).work.isFactored = true ∧
      computeStep twinProblem (ofField ![1, 2]) 0 (s.rescaledBy ![3, 1]) =
        .ok (some (step, kind)) t ∧ t.work.factorization = .regularized lu ∧
      ∃ a, meritSlope (ofMatrix twinMatrix) (ofField ![1, 2]) (ofField ![3, 1]) step = finite a ∧
        a < 0 := by
  have hway : comesTo factorize twinSession (fun usable s =>
      usable && (s.rescaledBy ![3, 1]).work.isFactored &&
        comesTo (computeStep twinProblem (ofField ![1, 2]) 0) (s.rescaledBy ![3, 1]) fun found t =>
          found.isSome && match t.work.factorization with
            | .regularized _ => true
            | _ => false) = true := by decide +kernel
  obtain ⟨usable, s, hs, hway⟩ := exists_of_comesTo hway
  obtain ⟨hway, hstep⟩ := Bool.and_eq_true_iff.1 hway
  obtain ⟨husable, hfactored⟩ := Bool.and_eq_true_iff.1 hway
  obtain ⟨found, t, ht, hstep⟩ := exists_of_comesTo hstep
  obtain ⟨hfound, hregularized⟩ := Bool.and_eq_true_iff.1 hstep
  obtain ⟨⟨step, kind⟩, rfl⟩ := Option.isSome_iff_exists.1 hfound
  have hst := (factorize_after twinSession).ok hs
  have hJ : (s.rescaledBy ![3, 1]).work.jacobian = ofMatrix twinMatrix := hst.jacobian
  have hdownhill := (computeStep_downhill (P := twinProblem) hJ rfl
    (fun _ => hst.present husable) 0 step).1 kind t ht
  cases hfactorization : t.work.factorization with
  | regularized lu =>
    rw [hJ] at hdownhill
    subst husable
    obtain ⟨a, ha, _, hneg⟩ := hdownhill.regularized lu hfactorization (by decide +kernel)
    exact ⟨s, t, step, kind, lu, hs, hfactored, ht, hfactorization, a, ha,
      hneg (by decide +kernel)⟩
  | _ =>
    rw [hfactorization] at hregularized
    cases hregularized

end AlgebraicLoop
