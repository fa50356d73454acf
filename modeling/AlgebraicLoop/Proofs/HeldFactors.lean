import AlgebraicLoop.Linear.Holder
import AlgebraicLoop.Proofs.ExactVectors
import AlgebraicLoop.Proofs.InsideBounds

/-!
# Solvers never answer for another matrix

A solver that holds one factorization is given matrices of any shape one after another and right-hand
sides of any length between them. What it answers depends on the last matrix alone: that one was taken
and the length fits, or there is no answer, and the right-hand side stays as it is.

* `LinearSolver`: what the solvers by elimination and by least norm have in common;
* `SolverCall`, `InUse`: the calls to a solver, and a solver together with the matrix it was given last;
* `InUse.FromLast`, `InUse.FromLast.solved_iff`: the solver is as the last matrix left it, whatever
  came before;
* `factor_det`, `reciprocalCondition_unit`: what an accepted factorization says without rounding;
* `solvers_answer_for_last`: the answers after any calls.
-/

namespace AlgebraicLoop
set_option autoImplicit false

open Exact

/-! ## Solvers in use -/

section
variable {α σ : Type}

/-- A solver that is given a matrix and then right-hand sides. A matrix it takes is solved for, one it
refuses leaves nothing to solve with. -/
class LinearSolver (α : outParam Type) (σ : Type) where
  new : σ
  factor : σ → SizedMat α → Except (Refusal α) Unit × σ
  solve : σ → Array α → Except (Refusal α) (Array α)
  unused : ∀ b x, solve new b ≠ .ok x
  accepted : ∀ {s A}, (factor s A).1 = .ok () →
    ∀ b, (∃ x, solve (factor s A).2 b = .ok x) ↔ b.size = A.rows
  refused : ∀ {s A}, (factor s A).1 ≠ .ok () → ∀ b x, solve (factor s A).2 b ≠ .ok x

/-- A call to a solver. -/
inductive SolverCall (α : Type) where
  | factor (A : SizedMat α)
  | solve (rhs : Array α)
  /-- The reciprocal condition number or the rank is read. -/
  | read

/-- A solver together with the matrix it was given last and its answer to it. -/
structure InUse (α σ : Type) where
  solver : σ
  last : Option (SizedMat α × Except (Refusal α) Unit)

variable [LinearSolver α σ]

/-- Writes the solution over the right-hand side. -/
def solveInPlace (s : σ) (rhs : Array α) : Except (Refusal α) Unit × Array α :=
  match LinearSolver.solve s rhs with
  | .ok x => (.ok (), x)
  | .error refusal => (.error refusal, rhs)

theorem solveInPlace_cases (s : σ) (rhs : Array α) :
    (∃ x, LinearSolver.solve s rhs = .ok x ∧ solveInPlace s rhs = (.ok (), x)) ∨
      ((∀ x, LinearSolver.solve s rhs ≠ .ok x) ∧
        ∃ refusal, solveInPlace s rhs = (.error refusal, rhs)) := by
  unfold solveInPlace
  cases LinearSolver.solve s rhs with
  | ok x => exact .inl ⟨x, rfl, rfl⟩
  | error refusal => exact .inr ⟨nofun, refusal, rfl⟩

theorem solveInPlace_ok (s : σ) (rhs : Array α) :
    (solveInPlace s rhs).1 = .ok () ↔ ∃ x, LinearSolver.solve s rhs = .ok x := by
  obtain ⟨x, hx, h⟩ | ⟨hx, _, h⟩ := solveInPlace_cases s rhs
  · rw [h]
    exact ⟨fun _ => ⟨x, hx⟩, fun _ => rfl⟩
  · rw [h]
    exact ⟨nofun, fun hok => (hok.elim hx).elim⟩

theorem solveInPlace_kept {s : σ} {rhs : Array α} (h : (solveInPlace s rhs).1 ≠ .ok ()) :
    (solveInPlace s rhs).2 = rhs := by
  obtain ⟨_, _, hok⟩ | ⟨_, _, herror⟩ := solveInPlace_cases s rhs
  · rw [hok] at h
    exact absurd rfl h
  · rw [herror]

namespace InUse

/-- One more call. -/
def call (u : InUse α σ) : SolverCall α → InUse α σ
  | .factor A => ⟨(LinearSolver.factor u.solver A).2, some (A, (LinearSolver.factor u.solver A).1)⟩
  | .solve _ => u
  | .read => u

variable (σ) in
/-- A new solver after a sequence of calls. -/
def after (calls : List (SolverCall α)) : InUse α σ := calls.foldl call ⟨LinearSolver.new, none⟩

/-- The solver is new, or it is what the last matrix made of some solver. -/
def FromLast (u : InUse α σ) : Prop :=
  (u.last = none ∧ u.solver = LinearSolver.new) ∨
    ∃ s A, u.last = some (A, (LinearSolver.factor s A).1) ∧ u.solver = (LinearSolver.factor s A).2

theorem FromLast.call {u : InUse α σ} (h : u.FromLast) (c : SolverCall α) : (u.call c).FromLast := by
  cases c with
  | factor A => exact .inr ⟨u.solver, A, rfl, rfl⟩
  | solve _ => exact h
  | read => exact h

variable (σ) in
/-- Nothing of an earlier matrix is left. -/
theorem fromLast_after (calls : List (SolverCall α)) : (after σ calls).FromLast := by
  have hrun : ∀ (calls : List (SolverCall α)) (u : InUse α σ), u.FromLast →
      (calls.foldl InUse.call u).FromLast := by
    intro calls
    induction calls with
    | nil => exact fun _ h => h
    | cons c calls ih => exact fun u h => ih _ (h.call c)
  exact hrun calls _ (.inl ⟨rfl, rfl⟩)

/-- A solve succeeds exactly if the matrix given last was taken and the length fits it. -/
theorem FromLast.solved_iff {u : InUse α σ} (h : u.FromLast) (rhs : Array α) :
    (solveInPlace u.solver rhs).1 = .ok () ↔
      ∃ A, u.last = some (A, .ok ()) ∧ rhs.size = A.rows := by
  rw [solveInPlace_ok]
  obtain ⟨hlast, hsolver⟩ | ⟨s, A, hlast, hsolver⟩ := h
  · rw [hsolver, hlast]
    exact ⟨fun hok => (hok.elim (LinearSolver.unused rhs)).elim, nofun⟩
  rw [hsolver, hlast]
  by_cases hanswer : (LinearSolver.factor s A).1 = .ok ()
  · rw [LinearSolver.accepted hanswer rhs, hanswer]
    constructor
    · exact fun hsize => ⟨A, rfl, hsize⟩
    · rintro ⟨_, hA, hsize⟩
      cases hA
      exact hsize
  · constructor
    · exact fun hok => (hok.elim (LinearSolver.refused hanswer rhs)).elim
    · rintro ⟨_, hA, _⟩
      exact absurd (congrArg Prod.snd (Option.some.inj hA)) hanswer

end InUse

end

/-! ## The two solvers -/

section
variable {α : Type}

theorem fitLength_ok {b : Array α} {n : Nat} : (∃ v, fitLength b n = .ok v) ↔ b.size = n := by
  unfold fitLength
  split
  · next h => exact ⟨fun _ => h, fun _ => ⟨_, rfl⟩⟩
  · next h => exact ⟨fun hok => (hok.elim nofun), fun hsize => absurd hsize h⟩

theorem map_fitLength_ok {β : Type} {n : Nat} (f : Vector α n → β) {b : Array α} :
    (∃ x, (fitLength b n).map f = .ok x) ↔ b.size = n := by
  rw [← fitLength_ok]
  cases fitLength b n with
  | ok v => exact ⟨fun _ => ⟨v, rfl⟩, fun _ => ⟨_, rfl⟩⟩
  | error _ => exact ⟨fun h => (h.elim nofun), fun h => (h.elim nofun)⟩

theorem SizedMat.square?_ok {A : SizedMat α} {B : Mat α A.rows A.rows} (h : A.square? = .ok B) :
    A = ⟨A.rows, A.rows, B⟩ := by
  obtain ⟨rows, columns, entries⟩ := A
  unfold SizedMat.square? at h
  split at h
  · next hsquare =>
    dsimp only at hsquare
    subst hsquare
    cases h
    rfl
  · cases h

theorem SizedMat.square?_square {n : Nat} (B : Mat α n n) : SizedMat.square? ⟨n, n, B⟩ = .ok B :=
  dif_pos rfl

variable [Scalar α]

theorem EliminationSolver.factor_cases (s : EliminationSolver α) (A : SizedMat α) :
    (∃ lu, A.square?.bind LU.factor = .ok lu ∧ s.factor A = (.ok (), ⟨some ⟨A.rows, lu⟩⟩)) ∨
      ∃ refusal, A.square?.bind LU.factor = .error refusal ∧
        s.factor A = (.error refusal, ⟨none⟩) := by
  unfold EliminationSolver.factor
  cases A.square?.bind LU.factor with
  | ok lu => exact .inl ⟨lu, rfl, rfl⟩
  | error refusal => exact .inr ⟨refusal, rfl, rfl⟩

theorem LeastNormSolver.factor_cases (s : LeastNormSolver α) (A : SizedMat α) :
    (∃ f, s.factor A = (.ok (), ⟨some ⟨A.rows, f⟩, f.rank⟩)) ∨
      ∃ refusal, s.factor A = (.error refusal, ⟨none, s.rank⟩) := by
  unfold LeastNormSolver.factor
  cases A.square?.bind LeastNorm.factor with
  | ok f => exact .inl ⟨f, rfl⟩
  | error refusal => exact .inr ⟨refusal, rfl⟩

instance EliminationSolver.linearSolver : LinearSolver α (EliminationSolver α) where
  new := {}
  factor := EliminationSolver.factor
  solve := EliminationSolver.solve
  unused _ _ := nofun
  accepted {s A} h b := by
    obtain ⟨lu, _, hfactor⟩ | ⟨_, _, hfactor⟩ := s.factor_cases A
    · rw [hfactor]
      exact map_fitLength_ok fun b => (lu.solve b).toArray
    · rw [hfactor] at h
      cases h
  refused {s A} h b x := by
    obtain ⟨_, _, hfactor⟩ | ⟨_, _, hfactor⟩ := s.factor_cases A
    · rw [hfactor] at h
      exact absurd rfl h
    · rw [hfactor]
      nofun

instance LeastNormSolver.linearSolver : LinearSolver α (LeastNormSolver α) where
  new := {}
  factor := LeastNormSolver.factor
  solve := LeastNormSolver.solve
  unused _ _ := nofun
  accepted {s A} h b := by
    obtain ⟨f, hfactor⟩ | ⟨_, hfactor⟩ := s.factor_cases A
    · rw [hfactor]
      exact map_fitLength_ok fun b => (f.solve b).toArray
    · rw [hfactor] at h
      cases h
  refused {s A} h b x := by
    obtain ⟨_, hfactor⟩ | ⟨_, hfactor⟩ := s.factor_cases A
    · rw [hfactor] at h
      exact absurd rfl h
    · rw [hfactor]
      nofun

end

/-! ## Accepted factorizations without rounding -/

section
variable {K : Type} [Field K] [LinearOrder K] [IsStrictOrderedRing K] [SquareRoot K] {n : Nat}
  {M : Fin n → Fin n → K} {lu : LU (Exact K) n}

/-- Only a non-singular matrix is taken. -/
theorem factor_det (h : LU.factor (ofMatrix M) = .ok lu) : (Matrix.of M).det ≠ 0 := by
  have hsurjective : Function.Surjective (Matrix.of M).mulVec := by
    intro v
    obtain ⟨w, _, hw⟩ := factor_solve h v
    exact ⟨w, funext hw⟩
  exact ((Matrix.isUnit_iff_isUnit_det _).1 (Matrix.mulVec_surjective_iff_isUnit.1 hsurjective)).ne_zero

omit [IsStrictOrderedRing K] in
theorem factor_oneNorm {A : Mat (Exact K) n n} (h : LU.factor A = .ok lu) : lu.oneNorm = A.oneNorm := by
  unfold LU.factor at h
  split at h
  · cases helim : eliminate (roundoff * A.maxEntry) 0 A with
    | error _ =>
      rw [helim] at h
      cases h
    | ok F =>
      rw [helim] at h
      cases h
      rfl
  · cases h

/-- The sums of the absolute values along the rows have a greatest one. -/
theorem maxNorm_sums (N : Fin n → Fin n → K) :
    ∃ c, maxNorm ((ofMatrix N).map fun row => total (row.map abs)) = finite c ∧
      ∀ i, ∑ j, |N i j| ≤ c := by
  have hrow : ∀ v : Fin n → K, (ofField v).map abs = ofField fun j => |v j| := by
    intro v
    ext j hj
    simp only [Vector.getElem_map, getElem_ofField, abs_finite]
  have hsums : ((ofMatrix N).map fun row => total (row.map abs)) = ofField fun i => ∑ j, |N i j| := by
    ext i hi
    rw [Vector.getElem_map, getElem_ofMatrix, hrow, total_ofField, getElem_ofField]
  obtain ⟨c, hc, _, hle, _⟩ := maxNorm_ofField fun i => ∑ j, |N i j|
  exact ⟨c, hsums ▸ hc, fun i => (le_abs_self _).trans (hle i)⟩

/-- The columns of the inverse that are computed solve for the unit vectors. -/
theorem inverseColumns_eq (h : LU.factor (ofMatrix M) = .ok lu) :
    ∃ X : Fin n → Fin n → K, lu.factors.inverseColumns = ofMatrix X ∧
      ∀ i k, ∑ j, M k j * X i j = if i = k then 1 else 0 := by
  have hunit : ∀ i : Fin n, ((Mat.identity n : Mat (Exact K) n n))[i] =
      ofField fun k => if i = k then 1 else 0 := by
    intro i
    ext k hk
    simp only [Mat.identity, Mat.ofFn, getElem_position, Vector.getElem_ofFn, getElem_ofField]
    split
    · exact one_eq
    · exact zero_eq
  choose X hX hsolves using fun i : Fin n => factor_solve h fun k => if i = k then 1 else 0
  refine ⟨X, ?_, hsolves⟩
  ext i hi : 1
  have hcolumn : lu.factors.inverseColumns[i] = lu.solve (Mat.identity n : Mat (Exact K) n n)[i] :=
    Vector.getElem_map _ hi
  rw [hcolumn, getElem_ofMatrix, ← hX ⟨i, hi⟩]
  exact congrArg lu.solve (hunit ⟨i, hi⟩)

omit [SquareRoot K] in
/-- The norms of a matrix and of its inverse multiply to at least one. -/
theorem one_le_norm_mul_norm {X : Fin n → Fin n → K} {c d : K} (i : Fin n)
    (hM : ∀ j, ∑ k, |M k j| ≤ c) (hX : ∑ j, |X i j| ≤ d) (hunit : ∑ j, M i j * X i j = 1) :
    1 ≤ c * d := by
  have hentry : ∀ j, |M i j| ≤ c := fun j =>
    (Finset.single_le_sum (fun k _ => abs_nonneg (M k j)) (Finset.mem_univ i)).trans (hM j)
  calc 1 = ∑ j, M i j * X i j := hunit.symm
    _ ≤ ∑ j, c * |X i j| := Finset.sum_le_sum fun j _ =>
        calc M i j * X i j ≤ |M i j * X i j| := le_abs_self _
          _ = |M i j| * |X i j| := abs_mul _ _
          _ ≤ c * |X i j| := mul_le_mul_of_nonneg_right (hentry j) (abs_nonneg _)
    _ = c * ∑ j, |X i j| := (Finset.mul_sum ..).symm
    _ ≤ c * d := mul_le_mul_of_nonneg_left hX ((abs_nonneg _).trans (hentry i))

/-- The reciprocal condition number of an accepted matrix. -/
theorem reciprocalCondition_unit (h : LU.factor (ofMatrix M) = .ok lu) :
    ∃ q, lu.reciprocalCondition = finite q ∧ 0 ≤ q ∧ q ≤ 1 := by
  have hzero : ∃ q : K, (0 : Exact K) = finite q ∧ 0 ≤ q ∧ q ≤ 1 :=
    ⟨0, zero_eq, le_refl 0, zero_le_one⟩
  unfold LU.reciprocalCondition
  split
  · exact hzero
  next hsize =>
  obtain ⟨X, hX, hsolves⟩ := inverseColumns_eq h
  obtain ⟨c, hc, hcolumns⟩ := maxNorm_sums fun j i => M i j
  obtain ⟨d, hd, hrows⟩ := maxNorm_sums X
  have hnorm : lu.oneNorm = finite c := by
    rw [factor_oneNorm h, Mat.oneNorm, transpose_ofMatrix, hc]
  let i : Fin n := ⟨0, Nat.pos_of_ne_zero (not_or.1 hsize).1⟩
  have hone : 1 ≤ c * d :=
    one_le_norm_mul_norm i hcolumns (hrows i) ((hsolves i i).trans (if_pos rfl))
  have hpos : 0 < c * d := zero_lt_one.trans_le hone
  dsimp only
  rw [hX, hd, if_pos (isFinite_finite d), hnorm, one_eq, finite_mul, finite_div 1 hpos.ne']
  exact ⟨1 / (c * d), rfl, (one_div_pos.2 hpos).le, (div_le_one hpos).2 hone⟩

/-! ## Answers after any calls -/

/-- A matrix the solver by elimination has taken, and what it holds then. -/
theorem EliminationSolver.accepted_square {s : EliminationSolver (Exact K)} {A : SizedMat (Exact K)}
    (h : (s.factor A).1 = .ok ()) :
    ∃ (n : Nat) (M : Fin n → Fin n → K) (lu : LU (Exact K) n), A = ⟨n, n, ofMatrix M⟩ ∧
      LU.factor (ofMatrix M) = .ok lu ∧ (s.factor A).2 = ⟨some ⟨n, lu⟩⟩ := by
  obtain ⟨lu, hbind, hfactor⟩ | ⟨_, _, hfactor⟩ := s.factor_cases A
  · cases hsquare : A.square? with
    | error _ =>
      rw [hsquare] at hbind
      cases hbind
    | ok B =>
      rw [hsquare] at hbind
      obtain ⟨M, rfl⟩ := factor_finite hbind
      exact ⟨A.rows, M, lu, SizedMat.square?_ok hsquare, hbind, by rw [hfactor]⟩
  · rw [hfactor] at h
    cases h

/-- What the solver by elimination holds when it has taken the last matrix. -/
theorem InUse.FromLast.held {u : InUse (Exact K) (EliminationSolver (Exact K))} (h : u.FromLast)
    {A : SizedMat (Exact K)} (hlast : u.last = some (A, .ok ())) :
    ∃ (n : Nat) (M : Fin n → Fin n → K) (lu : LU (Exact K) n), A = ⟨n, n, ofMatrix M⟩ ∧
      LU.factor (ofMatrix M) = .ok lu ∧ u.solver = ⟨some ⟨n, lu⟩⟩ := by
  obtain ⟨hnone, _⟩ | ⟨s, B, hsome, hsolver⟩ := h
  · cases hnone.symm.trans hlast
  · obtain ⟨rfl, hanswer⟩ := Prod.mk.inj (Option.some.inj (hsome.symm.trans hlast))
    rw [hsolver]
    exact EliminationSolver.accepted_square (s := s) hanswer

/-- The solver by elimination has a reciprocal condition number for the last matrix, if it took it. -/
theorem InUse.FromLast.reciprocalCondition_iff
    {u : InUse (Exact K) (EliminationSolver (Exact K))} (h : u.FromLast) :
    (∃ q, u.solver.reciprocalCondition = .ok q) ↔ ∃ A, u.last = some (A, .ok ()) := by
  constructor
  · rintro ⟨q, hq⟩
    obtain ⟨_, hsolver⟩ | ⟨s, A, hlast, hsolver⟩ := h
    · rw [hsolver] at hq
      cases hq
    · obtain ⟨_, _, hfactor⟩ | ⟨_, _, hfactor⟩ := s.factor_cases A
      · exact ⟨A, hlast.trans (congrArg (fun answer => some (A, answer)) (congrArg Prod.fst hfactor))⟩
      · rw [hsolver] at hq
        cases (congrArg (EliminationSolver.reciprocalCondition ·.2) hfactor).symm.trans hq
  · rintro ⟨A, hlast⟩
    obtain ⟨n, _, lu, _, _, hsolver⟩ := h.held hlast
    exact ⟨lu.reciprocalCondition, by rw [hsolver]; rfl⟩

/-- The answers a solver gives are those for the matrix it was given last. -/
structure AnswersForLast {α σ : Type} [LinearSolver α σ] (u : InUse α σ) : Prop where
  /-- A solve succeeds exactly if that matrix was taken and the length fits it. -/
  solved_iff : ∀ rhs, (solveInPlace u.solver rhs).1 = .ok () ↔
    ∃ A, u.last = some (A, .ok ()) ∧ rhs.size = A.rows
  /-- A right-hand side that is not solved for stays as it is. -/
  kept : ∀ rhs, (solveInPlace u.solver rhs).1 ≠ .ok () → (solveInPlace u.solver rhs).2 = rhs

theorem InUse.FromLast.answersForLast {α σ : Type} [LinearSolver α σ] {u : InUse α σ}
    (h : u.FromLast) : AnswersForLast u :=
  ⟨h.solved_iff, fun _ => solveInPlace_kept⟩

variable (K) in
/-- Whatever a solver was called for before, it answers for the matrix it was given last. Without
rounding elimination takes only square matrices that are not singular, its solutions solve, and its
reciprocal condition numbers lie between zero and one. -/
theorem solvers_answer_for_last :
    (∀ calls : List (SolverCall (Exact K)),
      let u := InUse.after (EliminationSolver (Exact K)) calls
      AnswersForLast u ∧
      (∀ A, u.last = some (A, .ok ()) → ∃ (n : Nat) (M : Fin n → Fin n → K),
        A = ⟨n, n, ofMatrix M⟩ ∧ (Matrix.of M).det ≠ 0 ∧
        ∀ v, ∃ w, solveInPlace u.solver (ofField v).toArray = (.ok (), (ofField w).toArray) ∧
          (Matrix.of M).mulVec w = v) ∧
      (∀ (n : Nat) (M : Fin n → Fin n → K), (Matrix.of M).det = 0 →
        (u.solver.factor ⟨n, n, ofMatrix M⟩).1 ≠ .ok ()) ∧
      ((∃ q, u.solver.reciprocalCondition = .ok q) ↔ ∃ A, u.last = some (A, .ok ())) ∧
      ∀ q, u.solver.reciprocalCondition = .ok q → ∃ r, q = finite r ∧ 0 ≤ r ∧ r ≤ 1) ∧
    ∀ {α : Type} [Scalar α] (calls : List (SolverCall α)),
      AnswersForLast (InUse.after (LeastNormSolver α) calls) := by
  refine ⟨fun calls => ?_, fun calls => (InUse.fromLast_after _ calls).answersForLast⟩
  have horigin := InUse.fromLast_after (EliminationSolver (Exact K)) calls
  refine ⟨horigin.answersForLast, fun A hlast => ?_, fun n M hsingular haccepted => ?_,
    horigin.reciprocalCondition_iff, fun q hq => ?_⟩
  · obtain ⟨n, M, lu, hA, hfactor, hsolver⟩ := horigin.held hlast
    refine ⟨n, M, hA, factor_det hfactor, fun v => ?_⟩
    obtain ⟨w, hw, hsolves⟩ := factor_solve hfactor v
    refine ⟨w, ?_, funext hsolves⟩
    have hfit : fitLength (ofField v).toArray n = .ok (ofField v) := dif_pos (ofField v).size_toArray
    have hsolve : LinearSolver.solve (InUse.after (EliminationSolver (Exact K)) calls).solver
        (ofField v).toArray = .ok (ofField w).toArray := by
      rw [hsolver, ← hw]
      exact congrArg (Except.map fun b => (lu.solve b).toArray) hfit
    rw [solveInPlace, hsolve]
  · obtain ⟨lu, hbind, _⟩ | ⟨_, _, hfactor⟩ := EliminationSolver.factor_cases _ ⟨n, n, ofMatrix M⟩
    · rw [SizedMat.square?_square] at hbind
      exact factor_det hbind hsingular
    · rw [hfactor] at haccepted
      cases haccepted
  · obtain ⟨A, hlast⟩ := horigin.reciprocalCondition_iff.1 ⟨q, hq⟩
    obtain ⟨n, M, lu, _, hfactor, hsolver⟩ := horigin.held hlast
    obtain ⟨r, hr, hunit⟩ := reciprocalCondition_unit hfactor
    rw [hsolver] at hq
    exact ⟨r, (Except.ok.inj hq).symm.trans hr, hunit⟩

end

/-- Calls with a singular matrix after one that was taken. -/
def callsToSingular : List (SolverCall (Exact ℚ)) :=
  [.factor ⟨2, 2, ofMatrix ![![2, 1], ![1, 3]]⟩, .solve #[finite 3, finite 4], .read,
    .factor ⟨2, 2, ofMatrix ![![1, 2], ![2, 4]]⟩]

/-- The same calls, and then a matrix that needs its rows exchanged and a right-hand side too short. -/
def callsToRegular : List (SolverCall (Exact ℚ)) :=
  callsToSingular ++ [.factor ⟨2, 2, ofMatrix ![![0, 2], ![1, 0]]⟩, .solve #[finite 1]]

/-- After a singular matrix a right-hand side stays as it is and there is no condition number, until a
matrix is taken again. -/
theorem solvers_answer_for_last_refused :
    ((solveInPlace (InUse.after (EliminationSolver (Exact ℚ)) callsToSingular).solver
        #[finite 3, finite 4]).2 = #[finite 3, finite 4] ∧
      ∀ q, (InUse.after (EliminationSolver (Exact ℚ)) callsToSingular).solver.reciprocalCondition ≠
        .ok q) ∧
    ∃ r : ℚ, (solveInPlace (InUse.after (EliminationSolver (Exact ℚ)) callsToRegular).solver
        #[finite 3, finite 4]).1 = .ok () ∧
      (InUse.after (EliminationSolver (Exact ℚ)) callsToRegular).solver.reciprocalCondition =
        .ok (finite r) ∧ 0 ≤ r ∧ r ≤ 1 := by
  obtain ⟨hanswers, _, _, hcondition, _⟩ := (solvers_answer_for_last ℚ).1 callsToSingular
  obtain ⟨hanswers', _, _, hcondition', hunit⟩ := (solvers_answer_for_last ℚ).1 callsToRegular
  have hrefused : ∀ A,
      (InUse.after (EliminationSolver (Exact ℚ)) callsToSingular).last ≠ some (A, .ok ()) := by
    intro A hlast
    have hanswer : ((InUse.after (EliminationSolver (Exact ℚ)) callsToSingular).last.map
        fun last => last.2.isOk) = some false := by decide +kernel
    rw [hlast] at hanswer
    cases hanswer
  have htaken : ∃ A, (InUse.after (EliminationSolver (Exact ℚ)) callsToRegular).last =
      some (A, .ok ()) ∧ A.rows = 2 := by
    have hanswer : ((InUse.after (EliminationSolver (Exact ℚ)) callsToRegular).last.map
        fun last => (last.2.isOk, last.1.rows)) = some (true, 2) := by decide +kernel
    obtain ⟨⟨A, answer⟩, hlast, hok⟩ := Option.map_eq_some_iff.1 hanswer
    cases answer with
    | ok _ => exact ⟨A, hlast, congrArg Prod.snd hok⟩
    | error _ => cases hok
  obtain ⟨A, hlast, hrows⟩ := htaken
  obtain ⟨q, hq⟩ := hcondition'.2 ⟨A, hlast⟩
  obtain ⟨r, rfl, hr⟩ := hunit q hq
  refine ⟨⟨hanswers.kept _ fun hok => ?_, fun q hq => ?_⟩, r, ?_, hq, hr⟩
  · obtain ⟨A, hlast, _⟩ := (hanswers.solved_iff _).1 hok
    exact hrefused A hlast
  · obtain ⟨A, hlast⟩ := hcondition.1 ⟨q, hq⟩
    exact hrefused A hlast
  · exact (hanswers'.solved_iff _).2 ⟨A, hlast, hrows.symm⟩

end AlgebraicLoop
