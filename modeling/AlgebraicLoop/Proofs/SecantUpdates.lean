import AlgebraicLoop.JacobianUpkeep
import AlgebraicLoop.Proofs.ExactVectors
import AlgebraicLoop.Proofs.InsideBounds
import Mathlib.Algebra.BigOperators.Field
import Mathlib.Algebra.Order.BigOperators.Ring.Finset
import Mathlib.LinearAlgebra.Matrix.Rank

/-!
# What the secant updates promise

Without rounding each update is a matrix formula. Along the step `p` Broyden's update and the one of
rank two map to the change of the residuals, the first of them row by row and but for what counts as
roundoff. The sparse update does so in each row where it can divide; a row where it cannot is passed
over, and the others are updated all the same.

* `secantDefect_ofField`: what the Jacobian misses of the change;
* `broyden_ofField`, `broyden_leastChange`: the update of least change;
* `sparseBroyden_ofField`, `sparseBroyden_rows`: the update within the entries of each row;
* `modifiedBfgs_ofField`, `modifiedBfgs_secant`: the update of rank two;
* `planJacobian_refused`: a refused update makes way for an evaluation.
-/

namespace AlgebraicLoop
set_option autoImplicit false

open Exact Matrix

/-! ## What the Jacobian misses -/

section
variable {K : Type} [Field K] [LinearOrder K] {n : Nat} (J : Fin n → Fin n → K)
  (p old new d w : Fin n → K)

/-- What the Jacobian misses of the change of a residual along a step. -/
def secantGap (i : Fin n) : K := new i - old i - ∑ j, J i j * p j

/-- What counts as roundoff of a residual. -/
def roundoffLevel (i : Fin n) : K := 1 / (2 : ℕ) ^ 52 * (|new i| + |old i|)

/-- The part of the gap that an update takes for real. -/
def visibleGap (i : Fin n) : K :=
  if |secantGap J p old new i| < roundoffLevel old new i then 0 else secantGap J p old new i

variable {J p old new} in
theorem visibleGap_of_le {i : Fin n} (h : roundoffLevel old new i ≤ |secantGap J p old new i|) :
    visibleGap J p old new i = secantGap J p old new i := if_neg (not_lt.2 h)

variable {J p old new} in
theorem visibleGap_of_lt {i : Fin n} (h : |secantGap J p old new i| < roundoffLevel old new i) :
    visibleGap J p old new i = 0 := if_pos h

variable [SquareRoot K]

theorem secantDefect_ofField :
    secantDefect (ofMatrix J) (ofField p) (ofField old) (ofField new) =
      ofField (visibleGap J p old new) := by
  unfold secantDefect
  rw [apply_ofMatrix]
  ext i hi
  simp only [Vector.getElem_ofFn, getElem_position, getElem_ofField, finite_sub, abs_finite,
    finite_add, roundoff_eq, finite_mul, finite_lt_finite, zero_eq]
  exact (apply_ite finite _ _ _).symm

theorem isUsable_finite {a : K} : isUsable (finite a : Exact K) = true ↔ 1 / 2 ^ 1022 < |a| := by
  unfold isUsable
  rw [isFinite_finite, Bool.true_and, decide_eq_true_iff, abs_finite]
  exact finite_lt_finite

theorem weightedStep_ofField :
    weightedStep (ofField p) (ofField d) = ofField fun j => d j * d j * p j :=
  zipWith_ofField fun j => by rw [finite_mul, finite_mul]

end

section
variable {K : Type} [Field K] [LinearOrder K] [IsStrictOrderedRing K] [SquareRoot K] {n : Nat}

theorem ne_zero_of_isUsable {a : K} (h : isUsable (finite a : Exact K) = true) : a ≠ 0 := by
  rintro rfl
  have hlt := isUsable_finite.1 h
  rw [abs_zero] at hlt
  exact absurd hlt (not_lt.2 (by positivity))

variable {J : Fin n → Fin n → K} {p old new d w : Fin n → K}

/-! ## The update of least change -/

/-- The square of the length of a step in the scales of the unknowns. -/
def squaredLength (p d : Fin n → K) : K := ∑ j, d j * d j * p j * p j

omit [IsStrictOrderedRing K] in
theorem dot_weightedStep (p d : Fin n → K) :
    dot (weightedStep (ofField p) (ofField d)) (ofField p) = finite (squaredLength p d) := by
  rw [weightedStep_ofField, dot_ofField]
  rfl

/-- Row `i` of the update of least change. -/
def broydenRow (J : Fin n → Fin n → K) (p old new d : Fin n → K) (i j : Fin n) : K :=
  J i j + visibleGap J p old new i * (d j * d j * p j / squaredLength p d)

theorem broyden_ofField (J : Fin n → Fin n → K) (p old new d : Fin n → K) :
    broyden (ofMatrix J) (ofField p) (ofField old) (ofField new) (ofField d) =
      if isUsable (finite (squaredLength p d) : Exact K) then
        some (ofMatrix (broydenRow J p old new d))
      else none := by
  unfold broyden
  dsimp only
  rw [dot_weightedStep]
  split
  · next husable =>
    have hdiv := ne_zero_of_isUsable husable
    rw [secantDefect_ofField, weightedStep_ofField]
    congr 1
    ext i hi j hj
    simp only [Vector.getElem_zipWith, getElem_ofMatrix, getElem_ofField, finite_div _ hdiv,
      finite_mul, finite_add]
    rfl
  · rfl

/-- Among the matrices that map the step to the change of the residuals, this one differs least from
the Jacobian, but for the rows with no more than roundoff to gain. -/
structure LeastChange (J : Fin n → Fin n → K) (p old new d : Fin n → K) (J' : Fin n → Fin n → K) :
    Prop where
  secant : ∀ i, roundoffLevel old new i ≤ |secantGap J p old new i| →
    ∑ j, J' i j * p j = new i - old i
  faint : ∀ i, |secantGap J p old new i| < roundoffLevel old new i → J' i = J i
  across : ∀ v : Fin n → K, ∑ j, d j * d j * p j * v j = 0 → ∀ i, ∑ j, J' i j * v j = ∑ j, J i j * v j
  least : (∀ j, d j ≠ 0) → ∀ (i : Fin n) (row : Fin n → K), ∑ j, row j * p j = new i - old i →
    ∑ j, ((J' i j - J i j) / d j) ^ 2 ≤ ∑ j, ((row j - J i j) / d j) ^ 2

omit [SquareRoot K] [IsStrictOrderedRing K] in
/-- What a row of the update maps a vector to. -/
theorem broydenRow_apply (J : Fin n → Fin n → K) (p old new d v : Fin n → K) (i : Fin n) :
    ∑ j, broydenRow J p old new d i j * v j = ∑ j, J i j * v j +
      visibleGap J p old new i * ((∑ j, d j * d j * p j * v j) / squaredLength p d) := by
  rw [Finset.sum_div, Finset.mul_sum, ← Finset.sum_add_distrib]
  refine Finset.sum_congr rfl fun j _ => ?_
  unfold broydenRow
  ring

omit [SquareRoot K] [IsStrictOrderedRing K] in
theorem broydenRow_secant (hlength : squaredLength p d ≠ 0) {i : Fin n}
    (hi : roundoffLevel old new i ≤ |secantGap J p old new i|) :
    ∑ j, broydenRow J p old new d i j * p j = new i - old i := by
  rw [broydenRow_apply, visibleGap_of_le hi]
  change _ + _ * (squaredLength p d / squaredLength p d) = _
  rw [div_self hlength]
  unfold secantGap
  ring

omit [SquareRoot K] in
theorem squaredLength_pos (hlength : squaredLength p d ≠ 0) : 0 < squaredLength p d := by
  refine lt_of_le_of_ne (Finset.sum_nonneg fun j _ => ?_) hlength.symm
  have hsquare : d j * d j * p j * p j = d j * p j * (d j * p j) := by ring
  rw [hsquare]
  exact mul_self_nonneg _

omit [SquareRoot K] in
theorem visibleGap_sq_le (J : Fin n → Fin n → K) (p old new : Fin n → K) (i : Fin n) :
    visibleGap J p old new i ^ 2 ≤ secantGap J p old new i ^ 2 := by
  unfold visibleGap
  split
  · rw [zero_pow two_ne_zero]
    exact sq_nonneg _
  · exact le_refl _

omit [LinearOrder K] [IsStrictOrderedRing K] [SquareRoot K] in
theorem sum_scaled_sq (p d : Fin n → K) : ∑ j, (d j * p j) ^ 2 = squaredLength p d :=
  Finset.sum_congr rfl fun j _ => by ring

omit [SquareRoot K] [IsStrictOrderedRing K] in
/-- The size of the change of a row, in the scales of the unknowns. -/
theorem broydenRow_change (hlength : squaredLength p d ≠ 0) (hd : ∀ j, d j ≠ 0) (i : Fin n) :
    ∑ j, ((broydenRow J p old new d i j - J i j) / d j) ^ 2 =
      visibleGap J p old new i ^ 2 / squaredLength p d := by
  have hterm : ∀ j, ((broydenRow J p old new d i j - J i j) / d j) ^ 2 =
      visibleGap J p old new i ^ 2 / squaredLength p d ^ 2 * (d j * p j) ^ 2 := fun j => by
    unfold broydenRow
    field_simp [hd j, hlength]
    ring
  rw [Finset.sum_congr rfl fun j _ => hterm j, ← Finset.mul_sum, sum_scaled_sq]
  field_simp

omit [SquareRoot K] in
/-- By the inequality of Cauchy and Schwarz no row that meets the secant equation is nearer. -/
theorem broydenRow_least (hlength : squaredLength p d ≠ 0) (hd : ∀ j, d j ≠ 0) {i : Fin n}
    {row : Fin n → K} (hrow : ∑ j, row j * p j = new i - old i) :
    ∑ j, ((broydenRow J p old new d i j - J i j) / d j) ^ 2 ≤
      ∑ j, ((row j - J i j) / d j) ^ 2 := by
  have hgap : ∑ j, (row j - J i j) / d j * (d j * p j) = secantGap J p old new i := by
    unfold secantGap
    rw [← hrow, ← Finset.sum_sub_distrib]
    refine Finset.sum_congr rfl fun j _ => ?_
    field_simp [hd j]
  have hcauchy := Finset.sum_mul_sq_le_sq_mul_sq Finset.univ
    (fun j => (row j - J i j) / d j) fun j => d j * p j
  rw [hgap, sum_scaled_sq] at hcauchy
  rw [broydenRow_change hlength hd, div_le_iff₀ (squaredLength_pos hlength)]
  exact (visibleGap_sq_le J p old new i).trans hcauchy

omit [SquareRoot K] in
theorem broydenRow_leastChange (hlength : squaredLength p d ≠ 0) :
    LeastChange J p old new d (broydenRow J p old new d) where
  secant _ hi := broydenRow_secant hlength hi
  faint i hi := by
    funext j
    unfold broydenRow
    rw [visibleGap_of_lt hi, zero_mul, add_zero]
  across v hv i := by rw [broydenRow_apply, hv, zero_div, mul_zero, add_zero]
  least hd _ _ hrow := broydenRow_least hlength hd hrow

/-- The update is refused where the length of the step is not usable, and is the one of least change
otherwise. -/
theorem broyden_leastChange (J : Fin n → Fin n → K) (p old new d : Fin n → K) :
    (broyden (ofMatrix J) (ofField p) (ofField old) (ofField new) (ofField d) = none ↔
      isUsable (finite (squaredLength p d) : Exact K) = false) ∧
    ∀ A, broyden (ofMatrix J) (ofField p) (ofField old) (ofField new) (ofField d) = some A →
      ∃ J', A = ofMatrix J' ∧ LeastChange J p old new d J' := by
  rw [broyden_ofField]
  cases husable : isUsable (finite (squaredLength p d) : Exact K) with
  | false => exact ⟨⟨fun _ => rfl, fun _ => rfl⟩, nofun⟩
  | true =>
    refine ⟨⟨nofun, nofun⟩, ?_⟩
    rintro _ ⟨⟩
    exact ⟨_, rfl, broydenRow_leastChange (ne_zero_of_isUsable husable)⟩

/-! ## The update within the entries of each row -/

/-- What the update of row `i` divides by. -/
def rowWeight (J : Fin n → Fin n → K) (p : Fin n → K) (i : Fin n) : K :=
  ∑ k, p k * J i k * (p k * J i k)

/-- Row `i` of the update: unchanged if there is nothing to gain or nothing to divide by. -/
def sparseBroydenRow (J : Fin n → Fin n → K) (p old new : Fin n → K) (i j : Fin n) : K :=
  if visibleGap J p old new i = 0 ∨ isUsable (finite (rowWeight J p i) : Exact K) = false then J i j
  else J i j + visibleGap J p old new i * p j * J i j * J i j / rowWeight J p i

omit [IsStrictOrderedRing K] in
theorem all_zero_ofField {p : Fin n → K} : (ofField p).all (· == 0) = true ↔ p = 0 := by
  rw [Vector.all_eq_true]
  constructor
  · intro h
    funext j
    have hj := h j j.isLt
    rw [getElem_ofField] at hj
    exact finite_beq_zero.1 hj
  · rintro rfl j hj
    rw [getElem_ofField]
    exact finite_beq_zero.2 rfl

theorem sparseRow_ofField (J : Fin n → Fin n → K) (p old new : Fin n → K) (i : Fin n) :
    sparseRow (ofField (J i)) (ofField p) (finite (visibleGap J p old new i)) =
      ofField (sparseBroydenRow J p old new i) := by
  have hweight : total ((ofField p).zipWith (fun p x => square (p * x)) (ofField (J i))) =
      finite (rowWeight J p i) := by
    rw [zipWith_ofField (g := fun k => p k * J i k * (p k * J i k)) fun k => rfl, total_ofField]
    rfl
  unfold sparseRow
  dsimp only
  simp only [hweight, finite_beq_zero, Bool.not_eq_true']
  split
  · next hkept =>
    congr 1
    funext j
    exact (if_pos hkept).symm
  · next hchanged =>
    have husable := Bool.not_eq_false _ ▸ (not_or.1 hchanged).2
    refine zipWith_ofField fun j => ?_
    rw [finite_mul, finite_mul, finite_mul, finite_div _ (ne_zero_of_isUsable husable), finite_add]
    unfold sparseBroydenRow
    rw [if_neg hchanged]

theorem sparseBroyden_ofField (J : Fin n → Fin n → K) (p old new : Fin n → K) :
    sparseBroyden (ofMatrix J) (ofField p) (ofField old) (ofField new) =
      if p = 0 then none else some (ofMatrix (sparseBroydenRow J p old new)) := by
  unfold sparseBroyden
  dsimp only
  simp only [all_zero_ofField, secantDefect_ofField]
  split
  · rfl
  · congr 1
    ext i hi : 1
    rw [Vector.getElem_zipWith, getElem_ofMatrix, getElem_ofField, getElem_ofMatrix]
    exact sparseRow_ofField J p old new ⟨i, hi⟩

/-- The rows that the update can divide in map the step to the change of the residuals; the others
stay. -/
structure SparseUpdate (J : Fin n → Fin n → K) (p old new : Fin n → K) (J' : Fin n → Fin n → K) :
    Prop where
  secant : ∀ i, roundoffLevel old new i ≤ |secantGap J p old new i| →
    secantGap J p old new i = 0 ∨ isUsable (finite (rowWeight J p i) : Exact K) = true →
      ∑ j, J' i j * p j = new i - old i
  faint : ∀ i, |secantGap J p old new i| < roundoffLevel old new i → J' i = J i
  passed : ∀ i, isUsable (finite (rowWeight J p i) : Exact K) = false → J' i = J i
  zeros : ∀ i j, J i j = 0 → J' i j = 0

omit [IsStrictOrderedRing K] in
theorem sparseBroydenRow_kept {i : Fin n} (h : visibleGap J p old new i = 0 ∨
    isUsable (finite (rowWeight J p i) : Exact K) = false) : sparseBroydenRow J p old new i = J i :=
  funext fun _ => if_pos h

theorem sparseBroydenRow_secant {i : Fin n}
    (hi : roundoffLevel old new i ≤ |secantGap J p old new i|)
    (hdue : secantGap J p old new i = 0 ∨ isUsable (finite (rowWeight J p i) : Exact K) = true) :
    ∑ j, sparseBroydenRow J p old new i j * p j = new i - old i := by
  have hvisible := visibleGap_of_le hi
  by_cases hgap : secantGap J p old new i = 0
  · rw [sparseBroydenRow_kept (.inl (hvisible.trans hgap))]
    exact (sub_eq_zero.1 hgap).symm
  · have husable := hdue.resolve_left hgap
    have hchanged : ¬ (visibleGap J p old new i = 0 ∨
        isUsable (finite (rowWeight J p i) : Exact K) = false) := by
      rw [hvisible, husable]
      simp [hgap]
    have hterm : ∀ j, sparseBroydenRow J p old new i j * p j = J i j * p j +
        secantGap J p old new i / rowWeight J p i * (p j * J i j * (p j * J i j)) := fun j => by
      unfold sparseBroydenRow
      rw [if_neg hchanged, hvisible]
      ring
    rw [Finset.sum_congr rfl fun j _ => hterm j, Finset.sum_add_distrib, ← Finset.mul_sum]
    change _ + _ * rowWeight J p i = _
    rw [div_mul_cancel₀ _ (ne_zero_of_isUsable husable)]
    unfold secantGap
    ring

theorem sparseBroydenRow_update (J : Fin n → Fin n → K) (p old new : Fin n → K) :
    SparseUpdate J p old new (sparseBroydenRow J p old new) where
  secant _ hi hdue := sparseBroydenRow_secant hi hdue
  faint _ hi := sparseBroydenRow_kept (.inl (visibleGap_of_lt hi))
  passed _ hi := sparseBroydenRow_kept (.inr hi)
  zeros i j hij := by
    unfold sparseBroydenRow
    rw [hij]
    simp

end

section
variable {α : Type} [Scalar α] {n : Nat}

/-- A refused update makes way for an evaluation, unless the Jacobian was already evaluated at the
point. -/
theorem planJacobian_refused {o : Options α} {variability : Variability} {event : Bool}
    {w : Workspace α n} {iteration : Nat} {f : Vector α n} (hlater : iteration ≠ 1)
    (hvaries : variability.variesWithinSolve = true) (hreuse : o.jacobianUpdate ≠ .reuse)
    (h : secantUpdate? o.jacobianUpdate w f = none) :
    planJacobian o variability event w iteration f = .alreadyFresh ∨
      planJacobian o variability event w iteration f = .evaluate := by
  unfold planJacobian
  rw [h, if_neg hlater, hvaries, if_neg hreuse]
  split
  · exact .inr rfl
  · split
    · exact .inl rfl
    · simp

end

section
variable {K : Type} [Field K] [LinearOrder K] [IsStrictOrderedRing K] [SquareRoot K] {n : Nat}

/-- Only a step of zero is refused, and makes way for an evaluation. Otherwise every row is updated
in which the update can divide, whatever the other rows are. -/
theorem sparseBroyden_rows (J : Fin n → Fin n → K) (p old new : Fin n → K) :
    (sparseBroyden (ofMatrix J) (ofField p) (ofField old) (ofField new) = none ↔ p = 0) ∧
    (∀ A, sparseBroyden (ofMatrix J) (ofField p) (ofField old) (ofField new) = some A →
      ∃ J', A = ofMatrix J' ∧ SparseUpdate J p old new J') ∧
    ∀ (o : Options (Exact K)) (variability : Variability) (event : Bool)
        (w : Workspace (Exact K) n) (iteration : Nat),
      o.jacobianUpdate = .sparseBroyden → w.jacobian = ofMatrix J →
      w.history = some ⟨ofField p, ofField old⟩ → iteration ≠ 1 →
      variability.variesWithinSolve = true → p = 0 →
        planJacobian o variability event w iteration (ofField new) = .alreadyFresh ∨
          planJacobian o variability event w iteration (ofField new) = .evaluate := by
  refine ⟨?_, ?_, fun o variability event w iteration hupdate hJ hhistory hlater hvaries hp => ?_⟩
  · rw [sparseBroyden_ofField]
    by_cases hp : p = 0
    · simp [hp]
    · simp [hp]
  · intro A hA
    rw [sparseBroyden_ofField] at hA
    split at hA
    · cases hA
    · cases hA
      exact ⟨_, rfl, sparseBroydenRow_update J p old new⟩
  · refine planJacobian_refused hlater hvaries (by rw [hupdate]; nofun) ?_
    unfold secantUpdate?
    rw [hhistory, hupdate, hJ]
    dsimp only
    rw [sparseBroyden_ofField, if_pos hp]

def unitMatrix : Fin 2 → Fin 2 → ℚ := ![![1, 0], ![0, 1]]

/-- The step does not move the only unknown of the second row, which misses a change of a quarter. -/
theorem sparseBroyden_rows_passed :
    ∃ J', sparseBroyden (ofMatrix unitMatrix) (ofField ![1, 0]) (ofField ![-1, 0])
        (ofField ![1 / 4, 1 / 4]) = some (ofMatrix J') ∧
      roundoffLevel ![-1, 0] ![1 / 4, 1 / 4] 1 ≤
        |secantGap unitMatrix ![1, 0] ![-1, 0] ![1 / 4, 1 / 4] 1| ∧
      ∑ j, J' 0 j * (![1, 0] : Fin 2 → ℚ) j = 5 / 4 ∧ J' 1 = unitMatrix 1 := by
  obtain ⟨hnone, hsome, _⟩ := sparseBroyden_rows unitMatrix ![1, 0] ![-1, 0] ![1 / 4, 1 / 4]
  cases hupdate : sparseBroyden (ofMatrix unitMatrix) (ofField ![1, 0]) (ofField ![-1, 0])
      (ofField ![1 / 4, 1 / 4]) with
  | none => exact absurd (hnone.1 hupdate) (by decide)
  | some A =>
    obtain ⟨J', rfl, hJ'⟩ := hsome A hupdate
    refine ⟨J', rfl, by decide +kernel, ?_, hJ'.passed 1 (by decide +kernel)⟩
    rw [hJ'.secant 0 (by decide +kernel) (.inr (by decide +kernel))]
    decide +kernel

/-! ## The update of rank two -/

/-- The change of the residuals, multiplied by the Jacobian from the left after weighting. -/
def weightedBack (J : Fin n → Fin n → K) (old new w : Fin n → K) (j : Fin n) : K :=
  ∑ i, J i j * (w i * w i * (new i - old i))

/-- The weighted product of the change and of what the Jacobian predicts. -/
def curvature (J : Fin n → Fin n → K) (p old new w : Fin n → K) : K :=
  ∑ i, w i * w i * (new i - old i) * ∑ j, J i j * p j

def bfgsRow (J : Fin n → Fin n → K) (p old new d w : Fin n → K) (i j : Fin n) : K :=
  J i j + ((new i - old i) * (d j * d j * p j / squaredLength p d) -
    (∑ k, J i k * p k) * (weightedBack J old new w j / curvature J p old new w))

theorem modifiedBfgs_ofField (J : Fin n → Fin n → K) (p old new d w : Fin n → K) :
    modifiedBfgs (ofMatrix J) (ofField p) (ofField old) (ofField new) (ofField d) (ofField w) =
      if isUsable (finite (squaredLength p d) : Exact K) = true ∧
          isUsable (finite (curvature J p old new w) : Exact K) = true then
        some (ofMatrix (bfgsRow J p old new d w))
      else none := by
  have hchange : (ofField new).zipWith (· - ·) (ofField old) = ofField fun i => new i - old i :=
    zipWith_ofField fun i => finite_sub _ _
  have hweighted : (ofField fun i => new i - old i).zipWith (fun d w => w * w * d) (ofField w) =
      ofField fun i => w i * w i * (new i - old i) :=
    zipWith_ofField fun i => by rw [finite_mul, finite_mul]
  have hback : (ofMatrix J).applyTranspose (ofField fun i => w i * w i * (new i - old i)) =
      ofField (weightedBack J old new w) := applyTranspose_ofMatrix J _
  have hcurvature : dot (ofField fun i => w i * w i * (new i - old i))
      (ofField fun i => ∑ j, J i j * p j) = finite (curvature J p old new w) := dot_ofField _ _
  unfold modifiedBfgs
  simp only [hchange, hweighted, hback, dot_weightedStep, apply_ofMatrix, hcurvature,
    Bool.and_eq_true]
  split
  · next h =>
    obtain ⟨hlength, hcurved⟩ := h
    congr 1
    ext i hi j hj
    simp only [Mat.ofFn, Vector.getElem_ofFn, getElem_position, weightedStep_ofField,
      getElem_ofMatrix, getElem_ofField, finite_div _ (ne_zero_of_isUsable hlength),
      finite_div _ (ne_zero_of_isUsable hcurved), finite_mul, finite_sub, finite_add]
    rfl
  · rfl

omit [SquareRoot K] in
/-- What a row of the update maps a vector to. -/
theorem bfgsRow_apply (J : Fin n → Fin n → K) (p old new d w v : Fin n → K) (i : Fin n) :
    ∑ j, bfgsRow J p old new d w i j * v j = ∑ j, J i j * v j +
      ((∑ j, d j * d j * p j * v j) / squaredLength p d * (new i - old i) -
        (∑ j, weightedBack J old new w j * v j) / curvature J p old new w *
          ∑ j, J i j * p j) := by
  rw [Finset.sum_div, Finset.sum_div, Finset.sum_mul, Finset.sum_mul, ← Finset.sum_sub_distrib,
    ← Finset.sum_add_distrib]
  refine Finset.sum_congr rfl fun j _ => ?_
  unfold bfgsRow
  ring

omit [LinearOrder K] [IsStrictOrderedRing K] [SquareRoot K] in
theorem weightedBack_step (J : Fin n → Fin n → K) (p old new w : Fin n → K) :
    ∑ j, weightedBack J old new w j * p j = curvature J p old new w := by
  simp only [weightedBack, curvature, Finset.sum_mul, Finset.mul_sum]
  rw [Finset.sum_comm]
  refine Finset.sum_congr rfl fun i _ => Finset.sum_congr rfl fun j _ => ?_
  ring

omit [SquareRoot K] in
/-- The difference maps a vector to the combination of the change and of the prediction that its
products with the two weighted steps give. -/
theorem bfgs_change (J : Fin n → Fin n → K) (p old new d w v : Fin n → K) :
    (Matrix.of (bfgsRow J p old new d w) - Matrix.of J) *ᵥ v =
      ((∑ j, d j * d j * p j * v j) / squaredLength p d) • (new - old) -
        ((∑ j, weightedBack J old new w j * v j) / curvature J p old new w) •
          (Matrix.of J *ᵥ p) := by
  rw [Matrix.sub_mulVec]
  funext i
  change ∑ j, bfgsRow J p old new d w i j * v j - ∑ j, J i j * v j = _
  rw [bfgsRow_apply, add_sub_cancel_left]
  rfl

omit [LinearOrder K] [IsStrictOrderedRing K] [SquareRoot K] in
/-- Vectors that are not multiples of each other can be told apart by their products with one
vector. -/
theorem exists_products {a b : Fin n → K} (h : LinearIndependent K ![a, b]) (s c : K) :
    ∃ v : Fin n → K, ∑ j, a j * v j = s ∧ ∑ j, b j * v j = c := by
  let M : Matrix (Fin 2) (Fin n) K := Matrix.of ![a, b]
  have hrank : M.rank = 2 := by
    have hrows : LinearIndependent K M.row := h
    rw [hrows.rank_matrix, Fintype.card_fin]
  have htop : LinearMap.range M.mulVecLin = ⊤ := by
    apply Submodule.eq_top_of_finrank_eq
    rw [Module.finrank_fin_fun]
    exact hrank
  obtain ⟨v, hv⟩ : ![s, c] ∈ LinearMap.range M.mulVecLin := by
    rw [htop]
    trivial
  exact ⟨v, congrFun hv 0, congrFun hv 1⟩

variable {J : Fin n → Fin n → K} {p old new d w : Fin n → K}

omit [SquareRoot K] in
theorem bfgs_secant (hlength : squaredLength p d ≠ 0) (hcurved : curvature J p old new w ≠ 0) :
    Matrix.of (bfgsRow J p old new d w) *ᵥ p = new - old := by
  have hstep := bfgs_change J p old new d w p
  change _ = (squaredLength p d / squaredLength p d) • _ - _ at hstep
  rw [weightedBack_step, div_self hlength, div_self hcurved, one_smul, one_smul,
    Matrix.sub_mulVec] at hstep
  exact sub_left_inj.1 hstep

omit [SquareRoot K] in
theorem bfgs_range_le (J : Fin n → Fin n → K) (p old new d w : Fin n → K) :
    LinearMap.range (Matrix.of (bfgsRow J p old new d w) - Matrix.of J).mulVecLin ≤
      Submodule.span K {new - old, Matrix.of J *ᵥ p} := by
  rintro _ ⟨v, rfl⟩
  rw [Matrix.mulVecLin_apply, bfgs_change]
  exact Submodule.sub_mem _
    (Submodule.smul_mem _ _ (Submodule.subset_span (Set.mem_insert _ _)))
    (Submodule.smul_mem _ _ (Submodule.subset_span (Set.mem_insert_of_mem _ rfl)))

omit [SquareRoot K] in
theorem bfgs_rank_le (J : Fin n → Fin n → K) (p old new d w : Fin n → K) :
    (Matrix.of (bfgsRow J p old new d w) - Matrix.of J).rank ≤ 2 := by
  have hpair := finrank_span_finset_le_card (R := K) {new - old, Matrix.of J *ᵥ p}
  rw [Set.finrank, Finset.coe_pair] at hpair
  exact ((Submodule.finrank_mono (bfgs_range_le J p old new d w)).trans hpair).trans
    Finset.card_le_two

omit [SquareRoot K] in
theorem bfgs_range_ge (hlength : squaredLength p d ≠ 0) (hcurved : curvature J p old new w ≠ 0)
    (hindependent : LinearIndependent K ![fun j => d j * d j * p j, weightedBack J old new w]) :
    Submodule.span K {new - old, Matrix.of J *ᵥ p} ≤
      LinearMap.range (Matrix.of (bfgsRow J p old new d w) - Matrix.of J).mulVecLin := by
  refine Submodule.span_le.2 (Set.pair_subset ?_ ?_)
  · obtain ⟨v, hlong, hback⟩ := exists_products hindependent (squaredLength p d) 0
    refine ⟨v, ?_⟩
    rw [Matrix.mulVecLin_apply, bfgs_change, hlong, hback, div_self hlength, zero_div, one_smul,
      zero_smul, sub_zero]
  · obtain ⟨v, hlong, hback⟩ := exists_products hindependent 0 (-curvature J p old new w)
    refine ⟨v, ?_⟩
    rw [Matrix.mulVecLin_apply, bfgs_change, hlong, hback, neg_div, div_self hcurved, zero_div,
      zero_smul, zero_sub, neg_one_smul, neg_neg]

/-- The update is refused where the length of the step or the curvature is not usable. Otherwise it
maps the step to the change of the residuals, and differs from the Jacobian by a matrix whose columns
are combinations of that change and of what the Jacobian predicts, all of them unless the two weighted
steps are multiples of each other. -/
theorem modifiedBfgs_secant (J : Fin n → Fin n → K) (p old new d w : Fin n → K) :
    (modifiedBfgs (ofMatrix J) (ofField p) (ofField old) (ofField new) (ofField d) (ofField w) =
        none ↔
      isUsable (finite (squaredLength p d) : Exact K) = false ∨
        isUsable (finite (curvature J p old new w) : Exact K) = false) ∧
    ∀ A, modifiedBfgs (ofMatrix J) (ofField p) (ofField old) (ofField new) (ofField d) (ofField w) =
        some A →
      ∃ J', A = ofMatrix J' ∧ Matrix.of J' *ᵥ p = new - old ∧
        (Matrix.of J' - Matrix.of J).rank ≤ 2 ∧
        LinearMap.range (Matrix.of J' - Matrix.of J).mulVecLin ≤
          Submodule.span K {new - old, Matrix.of J *ᵥ p} ∧
        (LinearIndependent K ![fun j => d j * d j * p j, weightedBack J old new w] →
          LinearMap.range (Matrix.of J' - Matrix.of J).mulVecLin =
            Submodule.span K {new - old, Matrix.of J *ᵥ p}) := by
  rw [modifiedBfgs_ofField]
  refine ⟨?_, fun A hA => ?_⟩
  · cases isUsable (finite (squaredLength p d) : Exact K) with
    | false => simp
    | true => cases isUsable (finite (curvature J p old new w) : Exact K) with
      | false => simp
      | true => simp
  · split at hA
    · next h =>
      obtain ⟨hlength, hcurved⟩ := h
      have hlength := ne_zero_of_isUsable hlength
      have hcurved := ne_zero_of_isUsable hcurved
      have hrange := bfgs_range_le J p old new d w
      cases hA
      exact ⟨_, rfl, bfgs_secant hlength hcurved, bfgs_rank_le J p old new d w, hrange,
        fun hindependent => le_antisymm hrange (bfgs_range_ge hlength hcurved hindependent)⟩
    · cases hA

def slantedMatrix : Fin 2 → Fin 2 → ℚ := ![![2, 1], ![1 / 2, 3]]

/-- A Jacobian that is not symmetric, in different scales of the unknowns and of the residuals. -/
theorem modifiedBfgs_secant_slanted :
    ∃ J', modifiedBfgs (ofMatrix slantedMatrix) (ofField ![3 / 10, -1 / 5]) (ofField ![1, 2])
        (ofField ![17 / 10, 11 / 10]) (ofField ![1, 1 / 2]) (ofField ![3, 1]) =
          some (ofMatrix J') ∧
      Matrix.of J' *ᵥ ![3 / 10, -1 / 5] = ![17 / 10, 11 / 10] - ![1, 2] ∧
      (Matrix.of J' - Matrix.of slantedMatrix).rank ≤ 2 := by
  obtain ⟨hnone, hsome⟩ := modifiedBfgs_secant slantedMatrix ![3 / 10, -1 / 5] ![1, 2]
    ![17 / 10, 11 / 10] ![1, 1 / 2] ![3, 1]
  cases hupdate : modifiedBfgs (ofMatrix slantedMatrix) (ofField ![3 / 10, -1 / 5])
      (ofField ![1, 2]) (ofField ![17 / 10, 11 / 10]) (ofField ![1, 1 / 2]) (ofField ![3, 1]) with
  | none => exact absurd (hnone.1 hupdate) (by decide +kernel)
  | some A =>
    obtain ⟨J', rfl, hsecant, hrank, _⟩ := hsome A hupdate
    exact ⟨J', rfl, hsecant, hrank⟩

end

end AlgebraicLoop
