import AlgebraicLoop.Merit
import AlgebraicLoop.Proofs.ExactElimination

/-!
# Vectors without rounding

The sums, products and norms that a solve takes of vectors, for vectors of finite numbers.

* `total_ofField`, `dot_ofField`, `apply_ofMatrix`, `applyTranspose_ofMatrix`: sums and products as
  sums of the field;
* `merit_ofField`, `meritSlope_ofField`: merits and slopes as field elements;
* `maxNorm_ofField`: the norm is a finite number, and zero only for the zero vector;
* `scaledNorm_zero`, `relativeLength_zero`: the same for scaled residuals and steps.
-/

namespace AlgebraicLoop
set_option autoImplicit false

open Exact

section
variable {K : Type} {n : Nat}

theorem ofField_toList (u : Fin n → K) :
    (ofField u).toList = (List.finRange n).map fun i => finite (u i) := by
  rw [ofField, Vector.toList_ofFn, List.ofFn_eq_map]

theorem zip_ofField (u v : Fin n → K) : ((ofField u).zip (ofField v)).toList =
    (List.finRange n).map fun i => (finite (u i), finite (v i)) := by
  rw [Vector.toList_zip, ofField_toList, ofField_toList, List.zip_map']

theorem zipWith_ofField {f : Exact K → Exact K → Exact K} {g : Fin n → K} {u v : Fin n → K}
    (h : ∀ i, f (finite (u i)) (finite (v i)) = finite (g i)) :
    (ofField u).zipWith f (ofField v) = ofField g := by
  ext i hi
  rw [Vector.getElem_zipWith, getElem_ofField, getElem_ofField, getElem_ofField]
  exact h ⟨i, hi⟩

end

section
variable {K : Type} [Field K] [LinearOrder K] [SquareRoot K] {n : Nat}

theorem larger_finite (a c : K) :
    larger (finite a : Exact K) (finite c) = finite (max a c) := by
  have hreal : isNaN (finite a : Exact K) = false := isNaN_eq_false_iff.2 (finite_ne_nan a)
  unfold larger
  rw [hreal]
  by_cases hac : a < c
  · rw [if_pos (.inr (finite_lt_finite.2 hac)), max_eq_right hac.le]
  · rw [if_neg (by simp [hac]), max_eq_left (not_lt.1 hac)]

theorem total_ofField (u : Fin n → K) : total (ofField u) = finite (∑ i, u i) := by
  unfold total
  rw [← Vector.foldl_toList, ofField_toList, List.foldl_map, zero_eq,
    foldl_terms (fun a i => finite_add a (u i)), zero_add, Fin.sum_univ_def]

theorem dot_ofField (u v : Fin n → K) : dot (ofField u) (ofField v) = finite (∑ i, u i * v i) := by
  unfold dot
  rw [zipWith_ofField fun i => finite_mul (u i) (v i), total_ofField]

theorem foldl_mulAdd (u v : Fin n → K) (l : List (Fin n)) (a : K) :
    l.foldl (fun s i => mulAdd (finite (u i)) (finite (v i)) s) (finite a) =
      finite (a + (l.map fun i => u i * v i).sum) :=
  foldl_terms (fun a i => congrArg finite (add_comm (u i * v i) a)) l a

theorem fusedDot_ofField (u v : Fin n → K) :
    fusedDot (ofField u) (ofField v) = finite (∑ i, u i * v i) := by
  unfold fusedDot
  rw [← Vector.foldl_toList, zip_ofField, List.foldl_map, zero_eq, foldl_mulAdd, zero_add,
    Fin.sum_univ_def]

theorem apply_ofMatrix (A : Fin n → Fin n → K) (p : Fin n → K) :
    (ofMatrix A).apply (ofField p) = ofField fun i => ∑ j, A i j * p j := by
  ext i hi
  simp only [Mat.apply, Vector.getElem_map, getElem_ofMatrix, getElem_ofField, fusedDot_ofField]

theorem map_neg_ofField (r : Fin n → K) : (ofField r).map (- ·) = ofField fun i => -r i := by
  ext i hi
  simp only [Vector.getElem_map, getElem_ofField, finite_neg]

theorem laneDot_ofField (lane : Nat) (u v : Fin n → K) :
    laneDot lane (ofField u) (ofField v) =
      finite (∑ i, if i.val % 4 = lane then u i * v i else 0) := by
  have hstep : ∀ (a : K) (i : Fin n),
      (if decide (i.val % 4 = lane) = true then
          mulAdd (ofField u)[i] (ofField v)[i] (finite a) else finite a) =
        finite (a + if i.val % 4 = lane then u i * v i else 0) := by
    intro a i
    by_cases hi : i.val % 4 = lane
    · rw [if_pos (decide_eq_true hi), if_pos hi, getElem_position, getElem_position,
        getElem_ofField, getElem_ofField]
      exact congrArg finite (add_comm (u i * v i) a)
    · rw [if_neg (by simpa using hi), if_neg hi, add_zero]
  unfold laneDot
  rw [List.foldl_filter, zero_eq, foldl_terms hstep, zero_add, Fin.sum_univ_def]

/-- Adding up in four lanes gives the inner product. -/
theorem interleavedDot_ofField (u v : Fin n → K) :
    interleavedDot (ofField u) (ofField v) = finite (∑ i, u i * v i) := by
  have hlanes : ∀ i : Fin n, u i * v i =
      ((if i.val % 4 = 0 then u i * v i else 0) + if i.val % 4 = 2 then u i * v i else 0) +
        ((if i.val % 4 = 1 then u i * v i else 0) + if i.val % 4 = 3 then u i * v i else 0) := by
    intro i
    obtain h | h | h | h :
        i.val % 4 = 0 ∨ i.val % 4 = 1 ∨ i.val % 4 = 2 ∨ i.val % 4 = 3 := by omega
    all_goals simp [h]
  unfold interleavedDot
  simp only [laneDot_ofField, finite_add, ← Finset.sum_add_distrib]
  rw [← Finset.sum_congr rfl fun i _ => hlanes i]

variable {m : Nat}

omit [Field K] [LinearOrder K] [SquareRoot K] in
theorem transpose_ofMatrix (A : Fin m → Fin n → K) :
    (ofMatrix A).transpose = ofMatrix fun j i => A i j := by
  ext j hj i hi
  simp [Mat.transpose, Mat.column]

theorem applyTranspose_ofMatrix (A : Fin m → Fin n → K) (y : Fin m → K) :
    (ofMatrix A).applyTranspose (ofField y) = ofField fun j => ∑ i, A i j * y i := by
  unfold Mat.applyTranspose
  rw [transpose_ofMatrix]
  ext j hj
  rw [Vector.getElem_map, getElem_ofMatrix, interleavedDot_ofField, getElem_ofField]

theorem meritSlope_ofField (J : Fin n → Fin n → K) (f w p : Fin n → K) :
    meritSlope (ofMatrix J) (ofField f) (ofField w) (ofField p) =
      finite (∑ i, w i * w i * f i * ∑ j, J i j * p j) := by
  have hweighted : (ofField w).zipWith (fun w y => w * w * y) (ofField f) =
      ofField fun i => w i * w i * f i := zipWith_ofField fun i => by rw [finite_mul, finite_mul]
  unfold meritSlope
  rw [hweighted, apply_ofMatrix, dot_ofField]

/-- The slope along a step that solves the linear equations is minus the scaled square of the
residual. -/
theorem meritSlope_step {A : Fin n → Fin n → K} {r p : Fin n → K}
    (hp : ∀ i, ∑ j, A i j * p j = -r i) (w : Fin n → K) :
    meritSlope (ofMatrix A) (ofField r) (ofField w) (ofField p) =
      finite (-∑ i, (r i * w i) * (r i * w i)) := by
  rw [meritSlope_ofField, ← Finset.sum_neg_distrib]
  congr 1
  refine Finset.sum_congr rfl fun i _ => ?_
  rw [hp]
  ring

end

section
variable {K : Type} [Field K] [LinearOrder K] [IsStrictOrderedRing K] [SquareRoot K] {n : Nat}

theorem merit_ofField (r w : Fin n → K) :
    merit (ofField r) (ofField w) = finite (1 / 2 * ∑ i, (r i * w i) * (r i * w i)) := by
  unfold merit
  rw [zipWith_ofField (g := fun i => r i * w i * (r i * w i)) fun i => rfl, total_ofField, half_eq,
    finite_mul]

/-- The greatest size of an entry. -/
theorem maxNorm_ofField (u : Fin n → K) :
    ∃ m, maxNorm (ofField u) = finite m ∧ 0 ≤ m ∧ (∀ i, |u i| ≤ m) ∧ (m = 0 ↔ ∀ i, u i = 0) := by
  have fold : ∀ (l : List (Fin n)) (a : K), 0 ≤ a →
      ∃ m, l.foldl (fun norm i => larger norm (abs (finite (u i)))) (finite a) = finite m ∧
        a ≤ m ∧ (∀ i ∈ l, |u i| ≤ m) ∧ (a = 0 → (∀ i ∈ l, u i = 0) → m = 0) := by
    intro l
    induction l with
    | nil => exact fun a _ => ⟨a, rfl, le_refl a, nofun, fun h _ => h⟩
    | cons i l ih =>
      intro a ha
      obtain ⟨m, hm, hle, hall, hzero⟩ := ih (max a |u i|) (le_max_of_le_left ha)
      refine ⟨m, ?_, (le_max_left _ _).trans hle, ?_, fun h0 hu => ?_⟩
      · rw [List.foldl_cons, abs_finite, larger_finite]
        exact hm
      · exact List.forall_mem_cons.2 ⟨(le_max_right _ _).trans hle, hall⟩
      · obtain ⟨hi, hu⟩ := List.forall_mem_cons.1 hu
        exact hzero (by rw [h0, hi, abs_zero, max_self]) hu
  obtain ⟨m, hm, hle, hall, hzero⟩ := fold (List.finRange n) 0 (le_refl 0)
  refine ⟨m, ?_, hle, fun i => hall i (List.mem_finRange i), fun h0 i => ?_, fun hu => ?_⟩
  · unfold maxNorm
    rw [← Vector.foldl_toList, ofField_toList, List.foldl_map, zero_eq]
    exact hm
  · exact abs_eq_zero.1 (le_antisymm (h0 ▸ hall i (List.mem_finRange i)) (abs_nonneg _))
  · exact hzero rfl fun i _ => hu i

variable {w d : Fin n → K}

omit [IsStrictOrderedRing K] in
theorem scaledNorm_ofField (r w : Fin n → K) :
    scaledNorm (ofField r) (ofField w) = maxNorm (ofField fun i => r i * w i) := by
  unfold scaledNorm
  rw [zipWith_ofField fun i => finite_mul (r i) (w i)]

/-- A residual that is scaled is zero only where the residual is. -/
theorem scaledNorm_zero (hw : ∀ i, 0 < w i) (r : Fin n → K) :
    ∃ m, scaledNorm (ofField r) (ofField w) = finite m ∧ 0 ≤ m ∧ (m = 0 ↔ r = 0) := by
  obtain ⟨m, hm, hnonneg, _, hzero⟩ := maxNorm_ofField fun i => r i * w i
  refine ⟨m, by rw [scaledNorm_ofField, hm], hnonneg, hzero.trans ?_⟩
  simp only [mul_eq_zero, (hw _).ne', or_false]
  exact funext_iff.symm

/-- A step has no length only if it is no step. -/
theorem relativeLength_zero (hd : ∀ i, 0 < d i) (p v : Fin n → K) :
    ∃ m, relativeLength (ofField p) (ofField v) (ofField d) = finite m ∧ 0 ≤ m ∧
      (m = 0 ↔ p = 0) := by
  have hsize : ∀ i, 0 < max |v i| (1 / d i) := fun i =>
    lt_max_of_lt_right (one_div_pos.2 (hd i))
  have hsizes : (ofField v).zipWith (fun y d => larger (abs y) (1 / d)) (ofField d) =
      ofField fun i => max |v i| (1 / d i) := zipWith_ofField fun i => by
    rw [abs_finite, one_eq, finite_div _ (hd i).ne', larger_finite]
  have hquotients : (ofField p).zipWith (fun p size => abs p / size)
      (ofField fun i => max |v i| (1 / d i)) = ofField fun i => |p i| / max |v i| (1 / d i) :=
    zipWith_ofField fun i => by rw [abs_finite, finite_div _ (hsize i).ne']
  obtain ⟨m, hm, hnonneg, _, hzero⟩ := maxNorm_ofField fun i => |p i| / max |v i| (1 / d i)
  refine ⟨m, ?_, hnonneg, hzero.trans ?_⟩
  · unfold relativeLength
    rw [hsizes, hquotients, hm]
  · simp only [div_eq_zero_iff, abs_eq_zero, (hsize _).ne', or_false]
    exact funext_iff.symm

end

end AlgebraicLoop
