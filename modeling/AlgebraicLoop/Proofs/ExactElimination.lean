import AlgebraicLoop.Linear.Elimination
import AlgebraicLoop.Proofs.Exact
import Mathlib.Algebra.BigOperators.Fin
import Mathlib.GroupTheory.Perm.Fin
import Mathlib.LinearAlgebra.Matrix.NonsingularInverse

/-!
# Elimination without rounding

Over numbers without rounding an accepted factorization solves its system, and the solution is the only
one. So the steps computed from it do not depend on the units of the equations.

* `ofField`, `ofMatrix`: vectors and matrices of finite numbers;
* `forwardSolve_eq`, `backwardSolve_eq`: triangular systems;
* `factor_finite`, `factor_solve`, `factor_unique`: what an accepted factorization says of its matrix;
* `factor_solve_scaled`: the same solution for equations in other units.
-/

namespace AlgebraicLoop
set_option autoImplicit false

open Exact

section
variable {K : Type} [Field K] [LinearOrder K] [SquareRoot K] {m n : Nat}

/-! ## Finite vectors and matrices -/

/-- A vector of finite numbers. -/
def ofField (v : Fin n → K) : Vector (Exact K) n := Vector.ofFn fun i => finite (v i)

/-- A matrix of finite numbers. -/
def ofMatrix (M : Fin m → Fin n → K) : Mat (Exact K) m n := Vector.ofFn fun i => ofField (M i)

omit [Field K] [LinearOrder K] [SquareRoot K] in
@[simp] theorem getElem_ofField (v : Fin n → K) (i : Nat) (hi : i < n) :
    (ofField v)[i] = finite (v ⟨i, hi⟩) := by simp [ofField]

omit [Field K] [LinearOrder K] [SquareRoot K] in
@[simp] theorem getElem_ofMatrix (M : Fin m → Fin n → K) (i : Nat) (hi : i < m) :
    (ofMatrix M)[i] = ofField (M ⟨i, hi⟩) := by simp [ofMatrix]

theorem replicate_zero : (Vector.replicate n 0 : Vector (Exact K) n) = ofField 0 := by
  ext i hi
  rw [Vector.getElem_replicate, getElem_ofField, zero_eq]
  rfl

theorem replicate_one : (Vector.replicate n 1 : Vector (Exact K) n) = ofField 1 := by
  ext i hi
  rw [Vector.getElem_replicate, getElem_ofField, one_eq]
  rfl

theorem allFinite_iff {v : Vector (Exact K) n} : allFinite v = true ↔ ∃ w, v = ofField w := by
  constructor
  · intro h
    have hfinite : ∀ i : Fin n, ∃ a, v[i] = finite a := fun i =>
      isFinite_iff.1 (Vector.all_eq_true.1 h i.val i.isLt)
    choose w hw using hfinite
    refine ⟨w, ?_⟩
    ext i hi
    rw [getElem_ofField]
    exact hw ⟨i, hi⟩
  · rintro ⟨w, rfl⟩
    exact Vector.all_eq_true.2 fun i hi => by rw [getElem_ofField]; rfl

omit [Field K] [LinearOrder K] [SquareRoot K] in
theorem ofField_set (v : Fin n → K) (i : Fin n) (a : K) :
    (ofField v).set i (finite a) i.isLt = ofField (Function.update v i a) := by
  ext j hj
  rw [Vector.getElem_set, getElem_ofField, getElem_ofField, Function.update_apply]
  by_cases h : i.val = j
  · subst h
    simp
  · have hne : (⟨j, hj⟩ : Fin n) ≠ i := fun he => h (congrArg Fin.val he).symm
    simp [h, hne]

/-! ## Triangular systems -/

omit [Field K] [LinearOrder K] [SquareRoot K] in
theorem foldl_terms [Field K] {ι : Type} {step : Exact K → ι → Exact K} {g : ι → K}
    (h : ∀ a i, step (finite a) i = finite (a + g i)) (l : List ι) (a : K) :
    l.foldl step (finite a) = finite (a + (l.map g).sum) := by
  induction l generalizing a with
  | nil => simp
  | cons i l ih => rw [List.foldl_cons, h, ih, List.map_cons, List.sum_cons, add_assoc]

variable {M : Fin n → Fin n → K} {v w : Fin n → K}

theorem unknown_eq {i : Fin n} (hdiagonal : M i i ≠ 0) (solved : List (Fin n)) (v : Fin n → K) :
    (ofMatrix M).unknown solved i (ofField v) =
      finite ((v i - (solved.map fun j => M i j * v j).sum) / M i i) := by
  have hinverse : (1 / (ofMatrix M)[i][i] : Exact K) = finite (1 / M i i) := by
    rw [one_eq]
    simp only [getElem_position, getElem_ofMatrix, getElem_ofField]
    exact finite_div 1 hdiagonal
  have hstep : ∀ (a : K) (j : Fin n),
      finite a + -((ofMatrix M)[i][j] * finite (1 / M i i)) * (ofField v)[j] =
        finite (a + -(M i j * (1 / M i i)) * v j) := by
    intro a j
    simp
  unfold Mat.unknown
  dsimp only
  rw [hinverse]
  have hstart : (ofField v)[i] * finite (1 / M i i) = finite (v i * (1 / M i i)) := by simp
  rw [hstart, foldl_terms hstep]
  congr 1
  have hsum : (solved.map fun j => -(M i j * (1 / M i i)) * v j).sum =
      -(1 / M i i) * (solved.map fun j => M i j * v j).sum := by
    rw [← List.sum_map_mul_left]
    congr 1
    refine List.map_congr_left fun j _ => ?_
    ring
  rw [hsum]
  ring

/-- The unknowns of a block solve its equations; the others stay. -/
structure Solves (M : Fin n → Fin n → K) (block : List (Fin n)) (v w : Fin n → K) : Prop where
  others : ∀ i, i ∉ block → w i = v i
  equations : ∀ i ∈ block, (block.map fun j => M i j * w j).sum = v i

/-- A triangular system is solved equation by equation. -/
theorem substitute_eq (hdiagonal : ∀ i, M i i ≠ 0) (rest solved : List (Fin n)) (v : Fin n → K)
    (hnodup : (solved ++ rest).Nodup) (hzero : rest.Pairwise fun i j => M i j = 0) :
    ∃ w, (ofMatrix M).substitute solved rest (ofField v) = ofField w ∧
      (∀ i, i ∉ rest → w i = v i) ∧
      ∀ i ∈ rest, ((solved ++ rest).map fun j => M i j * w j).sum = v i := by
  induction rest generalizing solved v with
  | nil => exact ⟨v, rfl, fun _ _ => rfl, nofun⟩
  | cons i rest ih =>
    obtain ⟨hfirst, hrest⟩ := List.pairwise_cons.1 hzero
    have hnodup' : ((solved ++ [i]) ++ rest).Nodup := by rwa [List.append_assoc]
    obtain ⟨hsolved, hcons, hapart⟩ := List.nodup_append.1 hnodup
    have hi : i ∉ rest := (List.nodup_cons.1 hcons).1
    let u := (v i - (solved.map fun j => M i j * v j).sum) / M i i
    obtain ⟨w, hw, hothers, hequations⟩ := ih (solved ++ [i]) (Function.update v i u) hnodup' hrest
    refine ⟨w, ?_, ?_, ?_⟩
    · unfold Mat.substitute
      rw [unknown_eq (hdiagonal i), ofField_set]
      exact hw
    · intro k hk
      obtain ⟨hki, hkrest⟩ := not_or.1 (fun h => hk (List.mem_cons.2 h))
      rw [hothers k hkrest, Function.update_of_ne hki]
    · intro k hk
      obtain rfl | hk := List.mem_cons.1 hk
      · have hbefore : (solved.map fun j => M k j * w j) = solved.map fun j => M k j * v j := by
          refine List.map_congr_left fun j hj => ?_
          have hjk : j ≠ k := fun h => hapart j hj k List.mem_cons_self h
          have hjrest : j ∉ rest := fun h => hapart j hj j (List.mem_cons_of_mem k h) rfl
          rw [hothers j hjrest, Function.update_of_ne hjk]
        have hafter : (rest.map fun j => M k j * w j).sum = 0 := by
          refine List.sum_eq_zero fun x hx => ?_
          obtain ⟨j, hj, rfl⟩ := List.mem_map.1 hx
          rw [hfirst j hj, zero_mul]
        rw [List.map_append, List.sum_append, List.map_cons, List.sum_cons, hbefore, hafter,
          hothers k hi, Function.update_self, add_zero, mul_div_cancel₀ _ (hdiagonal k)]
        ring
      · have hki : k ≠ i := fun h => hi (h ▸ hk)
        have hequation := hequations k hk
        rw [List.append_assoc, Function.update_of_ne hki] at hequation
        exact hequation

theorem reduce_eq (solved unsolved : List (Fin n)) (v : Fin n → K) (hnodup : unsolved.Nodup)
    (hapart : ∀ i ∈ unsolved, i ∉ solved) :
    (ofMatrix M).reduce unsolved solved (ofField v) = ofField fun i =>
      if i ∈ unsolved then v i - (solved.map fun j => M i j * v j).sum else v i := by
  unfold Mat.reduce
  induction unsolved generalizing v with
  | nil => simp
  | cons i unsolved ih =>
    obtain ⟨hi, hnodup⟩ := List.nodup_cons.1 hnodup
    have hentry : solved.foldl
        (fun sum j => mulAdd (ofMatrix M)[i][j] (-(ofField v)[j]) sum) (ofField v)[i] =
          finite (v i - (solved.map fun j => M i j * v j).sum) := by
      have hstep : ∀ (a : K) (j : Fin n),
          mulAdd (ofMatrix M)[i][j] (-(ofField v)[j]) (finite a) = finite (a + -(M i j * v j)) := by
        intro a j
        simp only [getElem_position, getElem_ofMatrix, getElem_ofField, finite_neg]
        exact congrArg finite (by ring)
      have hstart : (ofField v)[i] = finite (v i) := by simp
      have hsum : (solved.map fun j => -(M i j * v j)).sum =
          -1 * (solved.map fun j => M i j * v j).sum := by
        rw [← List.sum_map_mul_left]
        exact congrArg List.sum (List.map_congr_left fun j _ => by ring)
      rw [hstart, foldl_terms hstep, hsum, neg_one_mul, ← sub_eq_add_neg]
    have hsame : ∀ (k : Fin n) (u : K), (solved.map fun j => M k j * Function.update v i u j) =
        solved.map fun j => M k j * v j := by
      refine fun k u => List.map_congr_left fun j hj => ?_
      have hji : j ≠ i := fun h => hapart i List.mem_cons_self (h ▸ hj)
      rw [Function.update_of_ne hji]
    rw [List.foldl_cons, hentry, ofField_set,
      ih _ hnodup fun k hk => hapart k (List.mem_cons_of_mem i hk)]
    congr 1
    funext k
    rw [hsame]
    by_cases hki : k = i
    · subst hki
      simp [hi]
    · simp [hki]

omit [LinearOrder K] [SquareRoot K] in
/-- Two parts of a block, the first one solved before the second. -/
theorem Solves.join {first second : List (Fin n)} {w₁ : Fin n → K} (h₁ : Solves M first v w₁)
    (h₂ : Solves M second
      (fun i => if i ∈ second then w₁ i - (first.map fun j => M i j * w₁ j).sum else w₁ i) w)
    (hapart : ∀ i ∈ first, i ∉ second) (hzero : ∀ i ∈ first, ∀ j ∈ second, M i j = 0) :
    Solves M (first ++ second) v w := by
  have hkept : ∀ i ∈ first, w i = w₁ i := fun i hi => by
    rw [h₂.others i (hapart i hi), if_neg (hapart i hi)]
  have hfirst : ∀ i, (first.map fun j => M i j * w j) = first.map fun j => M i j * w₁ j := fun i =>
    List.map_congr_left fun j hj => by rw [hkept j hj]
  refine ⟨fun i hi => ?_, fun i hi => ?_⟩
  · obtain ⟨hi₁, hi₂⟩ := not_or.1 fun h => hi (List.mem_append.2 h)
    rw [h₂.others i hi₂, if_neg hi₂, h₁.others i hi₁]
  · rw [List.map_append, List.sum_append, hfirst]
    obtain hi | hi := List.mem_append.1 hi
    · have hsecond : (second.map fun j => M i j * w j).sum = 0 := by
        refine List.sum_eq_zero fun x hx => ?_
        obtain ⟨j, hj, rfl⟩ := List.mem_map.1 hx
        rw [hzero i hi j hj, zero_mul]
      rw [hsecond, add_zero, h₁.equations i hi]
    · have hi₁ : i ∉ first := fun h => hapart i h hi
      rw [h₂.equations i hi, if_pos hi, add_sub_cancel, h₁.others i hi₁]

omit [LinearOrder K] [SquareRoot K] in
theorem Solves.perm {block block' : List (Fin n)} (h : Solves M block v w) (hperm : block.Perm block') :
    Solves M block' v w where
  others i hi := h.others i fun hmem => hi (hperm.mem_iff.1 hmem)
  equations i hi := by
    rw [← (hperm.map _).sum_eq]
    exact h.equations i (hperm.mem_iff.2 hi)

/-- A block that is no longer halved. -/
theorem substitute_solves (hdiagonal : ∀ i, M i i ≠ 0) (block : List (Fin n)) (v : Fin n → K)
    (hnodup : block.Nodup) (hzero : block.Pairwise fun i j => M i j = 0) :
    ∃ w, (ofMatrix M).substitute [] block (ofField v) = ofField w ∧ Solves M block v w := by
  obtain ⟨w, hw, hothers, hequations⟩ := substitute_eq hdiagonal block [] v hnodup hzero
  exact ⟨w, hw, hothers, hequations⟩

theorem forwardBlock_solves (hdiagonal : ∀ i, M i i ≠ 0) (depth : Nat) (block : List (Fin n))
    (v : Fin n → K) (hdepth : block.length ≤ depth) (hnodup : block.Nodup)
    (hzero : block.Pairwise fun i j => M i j = 0) :
    ∃ w, (ofMatrix M).forwardBlock depth block (ofField v) = ofField w ∧ Solves M block v w := by
  induction depth generalizing block v with
  | zero =>
    obtain rfl := List.length_eq_zero_iff.1 (Nat.le_zero.1 hdepth)
    exact ⟨v, rfl, fun _ _ => rfl, nofun⟩
  | succ depth ih =>
    unfold Mat.forwardBlock
    split
    · exact substitute_solves hdiagonal block v hnodup hzero
    · next hlong =>
      unfold leafSize at hlong
      rw [List.splitAt_eq]
      dsimp only
      let top := block.take (block.length / 2)
      let bottom := block.drop (block.length / 2)
      have hparts : top ++ bottom = block := List.take_append_drop _ block
      rw [← hparts] at hnodup hzero
      obtain ⟨htop, hbottom, hapart⟩ := List.nodup_append.1 hnodup
      obtain ⟨hzeroTop, hzeroBottom, hcross⟩ := List.pairwise_append.1 hzero
      obtain ⟨w₁, hw₁, h₁⟩ := ih top v (by simp [top]; omega) htop hzeroTop
      have hreduced := reduce_eq (M := M) top bottom w₁ hbottom fun i hi h => hapart i h i hi rfl
      obtain ⟨w, hw, h₂⟩ := ih bottom _ (by simp [bottom]; omega) hbottom hzeroBottom
      refine ⟨w, ?_, ?_⟩
      · rw [hw₁, hreduced]
        exact hw
      · rw [← hparts]
        exact h₁.join h₂ (fun i hi h => hapart i hi i h rfl) hcross

theorem backwardBlock_solves (hdiagonal : ∀ i, M i i ≠ 0) (depth : Nat) (block : List (Fin n))
    (v : Fin n → K) (hdepth : block.length ≤ depth) (hnodup : block.Nodup)
    (hzero : block.Pairwise fun i j => M j i = 0) :
    ∃ w, (ofMatrix M).backwardBlock depth block (ofField v) = ofField w ∧ Solves M block v w := by
  induction depth generalizing block v with
  | zero =>
    obtain rfl := List.length_eq_zero_iff.1 (Nat.le_zero.1 hdepth)
    exact ⟨v, rfl, fun _ _ => rfl, nofun⟩
  | succ depth ih =>
    unfold Mat.backwardBlock
    split
    · obtain ⟨w, hw, hsolves⟩ := substitute_solves hdiagonal block.reverse v
        (List.nodup_reverse.2 hnodup) (List.pairwise_reverse.2 hzero)
      exact ⟨w, hw, hsolves.perm block.reverse_perm⟩
    · next hlong =>
      unfold leafSize at hlong
      rw [List.splitAt_eq]
      dsimp only
      let top := block.take (block.length / 2)
      let bottom := block.drop (block.length / 2)
      have hparts : top ++ bottom = block := List.take_append_drop _ block
      rw [← hparts] at hnodup hzero
      obtain ⟨htop, hbottom, hapart⟩ := List.nodup_append.1 hnodup
      obtain ⟨hzeroTop, hzeroBottom, hcross⟩ := List.pairwise_append.1 hzero
      obtain ⟨w₁, hw₁, h₁⟩ := ih bottom v (by simp [bottom]; omega) hbottom hzeroBottom
      have hreduced := reduce_eq (M := M) bottom top w₁ htop fun i hi h => hapart i hi i h rfl
      obtain ⟨w, hw, h₂⟩ := ih top _ (by simp [top]; omega) htop hzeroTop
      refine ⟨w, ?_, ?_⟩
      · rw [hw₁, hreduced]
        exact hw
      · have hjoined := h₁.join h₂ (fun i hi h => hapart i h i hi rfl) fun i hi j hj => hcross j hj i hi
        rw [← hparts]
        exact hjoined.perm List.perm_append_comm

theorem forwardSolve_eq (hdiagonal : ∀ i, M i i ≠ 0) (hlower : ∀ i j, i < j → M i j = 0)
    (v : Fin n → K) :
    ∃ w, (ofMatrix M).forwardSolve (ofField v) = ofField w ∧ ∀ i, ∑ j, M i j * w j = v i := by
  obtain ⟨w, hw, hsolves⟩ := forwardBlock_solves hdiagonal n (List.finRange n) v
    (List.length_finRange ▸ le_refl n) (List.nodup_finRange n)
    ((List.pairwise_lt_finRange n).imp fun h => hlower _ _ h)
  refine ⟨w, hw, fun i => ?_⟩
  rw [Fin.sum_univ_def]
  exact hsolves.equations i (List.mem_finRange i)

theorem backwardSolve_eq (hdiagonal : ∀ i, M i i ≠ 0) (hupper : ∀ i j, j < i → M i j = 0)
    (v : Fin n → K) :
    ∃ w, (ofMatrix M).backwardSolve (ofField v) = ofField w ∧ ∀ i, ∑ j, M i j * w j = v i := by
  obtain ⟨w, hw, hsolves⟩ := backwardBlock_solves hdiagonal n (List.finRange n) v
    (List.length_finRange ▸ le_refl n) (List.nodup_finRange n)
    ((List.pairwise_lt_finRange n).imp fun h => hupper _ _ h)
  refine ⟨w, hw, fun i => ?_⟩
  rw [Fin.sum_univ_def]
  exact hsolves.equations i (List.mem_finRange i)

/-! ## Elimination -/

section
variable {α : Type} [Scalar α]

/-- What the rows below the first one are reduced by. -/
def multipliers (B : Mat α (n + 1) (n + 1)) : Vector α n :=
  (afterFirst B).map fun row =>
    getElem row 0 n.succ_pos * ((1 : α) / getElem (getElem B 0 n.succ_pos) 0 n.succ_pos)

/-- What is left of a matrix after one step of elimination by its first row. -/
def reducedBlock (B : Mat α (n + 1) (n + 1)) : Mat α n n :=
  (afterFirst B).zipWith
    (fun row c => (afterFirst row).zipWith (fun x u => mulAdd (-c) u x)
      (afterFirst (getElem B 0 n.succ_pos)))
    (multipliers B)

/-- One step of an elimination that comes to its end. -/
theorem eliminate_step {threshold : α} {column : Nat} {A : Mat α (n + 1) (n + 1)}
    {F : Factors α (n + 1)} (h : eliminate threshold column A = .ok F) :
    let B := A.swap 0 (pivotRow A) n.succ_pos (pivotRow A).isLt
    let first := getElem B 0 n.succ_pos
    let pivot := getElem first 0 n.succ_pos
    isFinite pivot = true ∧ (pivot == 0) = false ∧
      ∃ rest, eliminate threshold (column + 1) (reducedBlock B) = .ok rest ∧
        F = .step (pivotRow A) pivot (afterFirst first) (multipliers B) rest := by
  unfold eliminate at h
  dsimp only at h
  split at h
  · cases h
  · next hpivot =>
    simp only [Bool.or_eq_true, not_or, Bool.not_eq_true, Bool.not_eq_false'] at hpivot
    refine ⟨hpivot.1.1, hpivot.1.2, ?_⟩
    change (eliminate threshold (column + 1) (reducedBlock _)).map _ = _ at h
    cases hrest : eliminate threshold (column + 1) (reducedBlock (A.swap 0 (pivotRow A))) with
    | error _ =>
      rw [hrest] at h
      cases h
    | ok rest =>
      rw [hrest] at h
      cases h
      exact ⟨rest, rfl, rfl⟩

omit [Scalar α] in
theorem getElem_swap_first (b : Vector α (n + 1)) (s k : Fin (n + 1)) :
    (b.swap 0 s n.succ_pos s.isLt)[k] = b[Equiv.swap 0 s k] := by
  rw [getElem_position, Vector.getElem_swap, Equiv.swap_apply_def]
  by_cases hk : k = 0
  · subst hk
    simp
  · have hk' : k.val ≠ 0 := fun h => hk (Fin.ext h)
    by_cases hs : k = s
    · subst hs
      simp [hk, hk']
    · have hs' : k.val ≠ s.val := fun h => hs (Fin.ext h)
      simp [hk, hk', hs, hs']

theorem getElem_reducedBlock (B : Mat α (n + 1) (n + 1)) (i j : Nat) (hi : i < n) (hj : j < n) :
    (reducedBlock B)[i][j] =
      mulAdd (-(B[i + 1][0] * ((1 : α) / B[0][0]))) B[0][j + 1] B[i + 1][j + 1] := by
  simp [reducedBlock, multipliers, afterFirst]

end

theorem mulAdd_real {x y z : Exact K} (h : mulAdd x y z ≠ nan) : x ≠ nan ∧ y ≠ nan ∧ z ≠ nan := by
  have hsum : x * y + z ≠ nan := h
  refine ⟨?_, ?_, ?_⟩
  · rintro rfl
    rw [exact_mul_comm, mul_nan] at hsum
    exact hsum (add_nan z).2
  · rintro rfl
    rw [mul_nan] at hsum
    exact hsum (add_nan z).2
  · rintro rfl
    exact hsum (add_nan _).1

/-- An elimination comes to its end only where every entry is a number. -/
theorem eliminate_real {threshold : Exact K} {column : Nat} {A : Mat (Exact K) n n}
    {F : Factors (Exact K) n} (h : eliminate threshold column A = .ok F) (i j : Fin n) :
    A[i][j] ≠ nan := by
  induction n generalizing column with
  | zero => exact i.elim0
  | succ n ih =>
    obtain ⟨hpivot, _, rest, hrest, _⟩ := eliminate_step h
    have hblock : ∀ i j : Fin n, _ := fun i j => ih hrest i j
    have hB : ∀ i j : Fin (n + 1), (A.swap 0 (pivotRow A))[i][j] ≠ nan := by
      intro i j
      generalize A.swap 0 (pivotRow A) = B at hpivot hblock ⊢
      simp only [getElem_position] at hblock ⊢
      cases i using Fin.cases with
      | zero =>
        cases j using Fin.cases with
        | zero =>
          obtain ⟨a, ha⟩ := isFinite_iff.1 hpivot
          exact fun hnan => by cases ha.symm.trans hnan
        | succ j =>
          have hentry := hblock j j
          rw [getElem_reducedBlock] at hentry
          exact (mulAdd_real hentry).2.1
      | succ i =>
        cases j using Fin.cases with
        | zero =>
          have hentry := hblock i i
          rw [getElem_reducedBlock] at hentry
          intro hnan
          refine (mulAdd_real hentry).1 ?_
          have hnan' : B[i.val + 1][0] = nan := hnan
          rw [hnan', exact_mul_comm, mul_nan]
          rfl
        | succ j =>
          have hentry := hblock i j
          rw [getElem_reducedBlock] at hentry
          exact (mulAdd_real hentry).2.2
    have hrow : (A.swap 0 (pivotRow A))[Equiv.swap 0 (pivotRow A) i] = A[i] := by
      rw [getElem_swap_first, Equiv.swap_apply_self]
    rw [← hrow]
    exact hB _ j

end

section
variable {K : Type} [Field K] [LinearOrder K] [IsStrictOrderedRing K] [SquareRoot K] {n : Nat}

theorem le_maxNorm {z : Exact K} (v : Vector (Exact K) n) (i : Fin n) (hz : z ≤ abs v[i]) :
    z ≤ maxNorm v := by
  have fold : ∀ (l : List (Exact K)) (y : Exact K), (z ≤ y ∨ ∃ x ∈ l, z ≤ abs x) →
      z ≤ l.foldl (fun norm x => larger norm (abs x)) y := by
    intro l
    induction l with
    | nil => exact fun y hy => hy.elim id fun ⟨_, hx, _⟩ => by cases hx
    | cons x l ih =>
      rintro y (hy | ⟨x', hx', hle⟩)
      · exact ih _ (.inl (LawfulScalar.le_larger_left hy))
      · obtain rfl | hx' := List.mem_cons.1 hx'
        · exact ih _ (.inl (LawfulScalar.le_larger_right hle))
        · exact ih _ (.inr ⟨x', hx', hle⟩)
  unfold maxNorm
  rw [← Vector.foldl_toList]
  exact fold _ 0 (.inr ⟨v[i], by simp, hz⟩)

/-- An accepted matrix has finite entries. -/
theorem factor_finite {A : Mat (Exact K) n n} {lu : LU (Exact K) n} (h : LU.factor A = .ok lu) :
    ∃ M, A = ofMatrix M := by
  unfold LU.factor at h
  split at h
  · next hmax =>
    obtain ⟨c, hc⟩ := isFinite_iff.1 hmax
    have hreal : ∀ i j : Fin n, A[i][j] ≠ nan := by
      cases helim : eliminate (roundoff * A.maxEntry) 0 A with
      | error _ =>
        rw [helim] at h
        cases h
      | ok F => exact eliminate_real helim
    have hbounded : ∀ i j : Fin n, ¬ (posInfinity : Exact K) ≤ abs A[i][j] := by
      intro i j hle
      have hrow : posInfinity ≤ maxNorm A[i] := le_maxNorm A[i] j hle
      have hentry : posInfinity ≤ A.maxEntry := by
        refine le_maxNorm (A.map maxNorm) i ?_
        have hnorm : (A.map maxNorm)[i] = maxNorm A[i] := by simp
        rw [hnorm]
        cases hcase : maxNorm A[i] with
        | posInfinity => exact trivial
        | _ => exact (hcase ▸ hrow).elim
      rw [hc] at hentry
      exact hentry
    have hentries : ∀ i j : Fin n, ∃ a, A[i][j] = finite a := by
      intro i j
      cases hcase : A[i][j] with
      | finite a => exact ⟨a, rfl⟩
      | nan => exact absurd hcase (hreal i j)
      | posInfinity => exact absurd (by rw [hcase]; exact trivial) (hbounded i j)
      | negInfinity => exact absurd (by rw [hcase]; exact trivial) (hbounded i j)
    choose M hM using hentries
    refine ⟨M, ?_⟩
    ext i hi j hj
    rw [getElem_ofMatrix, getElem_ofField]
    exact hM ⟨i, hi⟩ ⟨j, hj⟩
  · cases h

/-! ## Factors -/

/-- The factors of a matrix over the field: its rows, in another order, are the product of a lower and
an upper triangular matrix. -/
structure Factorizes (F : Factors (Exact K) n) (M : Fin n → Fin n → K) (order : Equiv.Perm (Fin n))
    (L U : Fin n → Fin n → K) : Prop where
  permute : ∀ (b : Vector (Exact K) n) (i : Fin n), (F.permute b)[i] = b[order i]
  lower : F.lower = ofMatrix L
  upper : F.upper = ofMatrix U
  lower_zero : ∀ i j, i < j → L i j = 0
  lower_one : ∀ i, L i i = 1
  upper_zero : ∀ i j, j < i → U i j = 0
  upper_ne : ∀ i, U i i ≠ 0
  product : ∀ i j, ∑ k, L i k * U k j = M (order i) j

@[simp] theorem getElem_consFirst_zero {β : Type} (x : β) (v : Vector β n) :
    getElem (consFirst x v) 0 n.succ_pos = x := by simp [consFirst]

@[simp] theorem getElem_consFirst_succ {β : Type} (x : β) (v : Vector β n) (i : Nat)
    (hi : i + 1 < n + 1) : (consFirst x v)[i + 1] = v[i] := by simp [consFirst]

omit [Field K] [LinearOrder K] [IsStrictOrderedRing K] [SquareRoot K] in
theorem consFirst_ofField (a : K) (v : Fin n → K) :
    consFirst (finite a) (ofField v) = ofField (Fin.cons a v : Fin (n + 1) → K) := by
  ext i hi
  cases i with
  | zero => rw [getElem_consFirst_zero, getElem_ofField]; rfl
  | succ i => rw [getElem_consFirst_succ, getElem_ofField, getElem_ofField]; rfl

omit [Field K] [LinearOrder K] [IsStrictOrderedRing K] [SquareRoot K] in
theorem consFirst_ofMatrix (row : Fin (n + 1) → K) (c : Fin n → K) (M : Fin n → Fin n → K) :
    consFirst (ofField row) ((ofField c).zipWith consFirst (ofMatrix M)) =
      ofMatrix (Fin.cons row fun i => Fin.cons (c i) (M i)) := by
  ext i hi j hj
  cases i with
  | zero => rw [getElem_consFirst_zero, getElem_ofMatrix]; rfl
  | succ i =>
    rw [getElem_consFirst_succ, Vector.getElem_zipWith, getElem_ofField, getElem_ofMatrix,
      consFirst_ofField, getElem_ofMatrix]
    rfl

omit [Field K] [LinearOrder K] [IsStrictOrderedRing K] [SquareRoot K] in
theorem swap_ofMatrix (M : Fin (n + 1) → Fin (n + 1) → K) (s : Fin (n + 1)) :
    (ofMatrix M).swap 0 s n.succ_pos s.isLt = ofMatrix fun i => M (Equiv.swap 0 s i) := by
  refine Vector.ext fun i hi => ?_
  have hentry := getElem_swap_first (ofMatrix M) s ⟨i, hi⟩
  simp only [getElem_position, getElem_ofMatrix] at hentry ⊢
  exact hentry

omit [Field K] [LinearOrder K] [IsStrictOrderedRing K] [SquareRoot K] in
theorem afterFirst_ofField (v : Fin (n + 1) → K) :
    afterFirst (ofField v) = ofField fun i => v i.succ := by
  ext i hi
  simp [afterFirst]

omit [IsStrictOrderedRing K] in
theorem multiplier_ofMatrix (N : Fin (n + 1) → Fin (n + 1) → K) (hpivot : N 0 0 ≠ 0) (i : Nat)
    (hi : i + 1 < n + 1) :
    (ofMatrix N)[i + 1][0] * ((1 : Exact K) / (ofMatrix N)[0][0]) =
      finite (N ⟨i + 1, hi⟩ 0 * (1 / N 0 0)) := by
  simp only [getElem_ofMatrix, getElem_ofField]
  rw [one_eq]
  exact congrArg (finite _ * ·) (finite_div 1 hpivot)

omit [IsStrictOrderedRing K] in
theorem multipliers_ofMatrix (N : Fin (n + 1) → Fin (n + 1) → K) (hpivot : N 0 0 ≠ 0) :
    multipliers (ofMatrix N) = ofField fun i => N i.succ 0 * (1 / N 0 0) := by
  ext i hi
  have hentry : (multipliers (ofMatrix N))[i] =
      (ofMatrix N)[i + 1][0] * ((1 : Exact K) / (ofMatrix N)[0][0]) := by
    simp [multipliers, afterFirst]
  rw [hentry, multiplier_ofMatrix N hpivot, getElem_ofField]
  rfl

omit [LinearOrder K] [IsStrictOrderedRing K] [SquareRoot K] in
theorem neg_mul_add_eq (c u x : K) : -c * u + x = x - c * u := by ring

omit [IsStrictOrderedRing K] in
theorem reducedBlock_ofMatrix (N : Fin (n + 1) → Fin (n + 1) → K) (hpivot : N 0 0 ≠ 0) :
    reducedBlock (ofMatrix N) =
      ofMatrix fun i j => N i.succ j.succ - N i.succ 0 * (1 / N 0 0) * N 0 j.succ := by
  ext i hi j hj
  rw [getElem_reducedBlock, multiplier_ofMatrix N hpivot]
  simp only [getElem_ofMatrix, getElem_ofField, finite_neg]
  exact congrArg finite (neg_mul_add_eq _ _ _)

/-! ### One step -/

section
variable {rest : Factors (Exact K) n} {order : Equiv.Perm (Fin n)}

section
variable (hpermute : ∀ (b : Vector (Exact K) n) (i : Fin n), (rest.permute b)[i] = b[order i])
include hpermute

omit [Field K] [LinearOrder K] [IsStrictOrderedRing K] [SquareRoot K] in
theorem permute_step (s : Fin (n + 1)) (pivot : Exact K) (row below : Vector (Exact K) n)
    (b : Vector (Exact K) (n + 1)) (i : Fin (n + 1)) :
    ((Factors.step s pivot row below rest).permute b)[i] =
      b[(Equiv.Perm.decomposeFin.symm (0, order)).trans (Equiv.swap 0 s) i] := by
  rw [Factors.permute]
  cases i using Fin.cases with
  | zero =>
    have hfirst : (consFirst (b.swap 0 s)[0] (rest.permute (afterFirst (b.swap 0 s))))[0] =
        (b.swap 0 s)[(0 : Fin (n + 1))] := getElem_consFirst_zero _ _
    rw [Equiv.trans_apply, Equiv.Perm.decomposeFin_symm_apply_zero, ← getElem_swap_first]
    exact hfirst
  | succ i =>
    have hlater : (consFirst (b.swap 0 s)[0] (rest.permute (afterFirst (b.swap 0 s))))[i.val + 1] =
        (rest.permute (afterFirst (b.swap 0 s)))[i] := getElem_consFirst_succ _ _ _ _
    have hentry : (afterFirst (b.swap 0 s))[order i] = (b.swap 0 s)[(order i).succ] := by
      simp [afterFirst]
    rw [Equiv.trans_apply, Equiv.Perm.decomposeFin_symm_apply_succ, Equiv.swap_self,
      Equiv.refl_apply, ← getElem_swap_first, ← hentry, ← hpermute]
    exact hlater

omit [Field K] [LinearOrder K] [IsStrictOrderedRing K] [SquareRoot K] in
theorem permute_ofField (v : Fin n → K) :
    rest.permute (ofField v) = ofField fun i => v (order i) := by
  ext i hi
  have hentry := hpermute (ofField v) ⟨i, hi⟩
  simp only [getElem_position, getElem_ofField] at hentry ⊢
  exact hentry

omit [IsStrictOrderedRing K] in
theorem lower_step {L : Fin n → Fin n → K} (hlower : rest.lower = ofMatrix L) (s : Fin (n + 1))
    (pivot : Exact K) (row : Vector (Exact K) n) (below : Fin n → K) :
    (Factors.step s pivot row (ofField below) rest).lower =
      ofMatrix (Fin.cons (Fin.cons 1 0) fun i => Fin.cons (below (order i)) (L i)) := by
  rw [Factors.lower, permute_ofField hpermute, hlower, replicate_zero, one_eq, consFirst_ofField,
    consFirst_ofMatrix]

end

omit [IsStrictOrderedRing K] in
theorem upper_step {U : Fin n → Fin n → K} (hupper : rest.upper = ofMatrix U) (s : Fin (n + 1))
    (pivot : K) (row : Fin n → K) (below : Vector (Exact K) n) :
    (Factors.step s (finite pivot) (ofField row) below rest).upper =
      ofMatrix (Fin.cons (Fin.cons pivot row) fun i => Fin.cons 0 (U i)) := by
  have hrows : (ofMatrix U).map (consFirst (0 : Exact K)) =
      ofMatrix fun i => (Fin.cons 0 (U i) : Fin (n + 1) → K) := by
    refine Vector.ext fun i hi => ?_
    rw [Vector.getElem_map, getElem_ofMatrix, getElem_ofMatrix, zero_eq, consFirst_ofField]
  rw [Factors.upper, hupper, hrows, consFirst_ofField]
  refine Vector.ext fun i hi => ?_
  cases i with
  | zero => rw [getElem_consFirst_zero, getElem_ofMatrix]; rfl
  | succ i => rw [getElem_consFirst_succ, getElem_ofMatrix, getElem_ofMatrix]; rfl

end

/-- One step of elimination, over the field. -/
theorem Factorizes.step {rest : Factors (Exact K) n} {M N : Fin (n + 1) → Fin (n + 1) → K}
    {s : Fin (n + 1)} {order : Equiv.Perm (Fin n)} {L U : Fin n → Fin n → K}
    (hN : ∀ i, N i = M (Equiv.swap 0 s i)) (hpivot : N 0 0 ≠ 0)
    (h : Factorizes rest (fun i j => N i.succ j.succ - N i.succ 0 * (1 / N 0 0) * N 0 j.succ)
      order L U) :
    Factorizes
      (.step s (finite (N 0 0)) (ofField fun j => N 0 j.succ)
        (ofField fun i => N i.succ 0 * (1 / N 0 0)) rest) M
      ((Equiv.Perm.decomposeFin.symm (0, order)).trans (Equiv.swap 0 s))
      (Fin.cons (Fin.cons 1 0) fun i => Fin.cons (N (order i).succ 0 * (1 / N 0 0)) (L i))
      (Fin.cons (Fin.cons (N 0 0) fun j => N 0 j.succ) fun i => Fin.cons 0 (U i)) where
  permute := permute_step h.permute s _ _ _
  lower := lower_step h.permute h.lower s _ _ _
  upper := upper_step h.upper s _ _ _
  lower_zero i j hij := by
    cases j using Fin.cases with
    | zero => exact absurd hij (Fin.not_lt_zero i)
    | succ j =>
      cases i using Fin.cases with
      | zero => rfl
      | succ i => exact h.lower_zero i j (Fin.succ_lt_succ_iff.1 hij)
  lower_one i := by
    cases i using Fin.cases with
    | zero => rfl
    | succ i => exact h.lower_one i
  upper_zero i j hij := by
    cases i using Fin.cases with
    | zero => exact absurd hij (Fin.not_lt_zero j)
    | succ i =>
      cases j using Fin.cases with
      | zero => rfl
      | succ j => exact h.upper_zero i j (Fin.succ_lt_succ_iff.1 hij)
  upper_ne i := by
    cases i using Fin.cases with
    | zero => exact hpivot
    | succ i => exact h.upper_ne i
  product i j := by
    rw [Fin.sum_univ_succ, Equiv.trans_apply]
    cases i using Fin.cases with
    | zero =>
      rw [Equiv.Perm.decomposeFin_symm_apply_zero, ← hN]
      cases j using Fin.cases with
      | zero => simp
      | succ j => simp
    | succ i =>
      rw [Equiv.Perm.decomposeFin_symm_apply_succ, Equiv.swap_self, Equiv.refl_apply, ← hN]
      cases j using Fin.cases with
      | zero => simp [hpivot]
      | succ j =>
        simp only [Fin.cons_succ, Fin.cons_zero]
        rw [h.product i j]
        ring

theorem eliminate_factorizes {threshold : Exact K} {column : Nat} {M : Fin n → Fin n → K}
    {F : Factors (Exact K) n} (h : eliminate threshold column (ofMatrix M) = .ok F) :
    ∃ order L U, Factorizes F M order L U := by
  induction n generalizing column with
  | zero =>
    cases F with
    | done =>
      exact ⟨1, fun i => i.elim0, fun i => i.elim0, fun _ i => i.elim0, rfl, rfl, fun i => i.elim0,
        fun i => i.elim0, fun i => i.elim0, fun i => i.elim0, fun i => i.elim0⟩
  | succ n ih =>
    obtain ⟨_, hpivot, rest, hrest, rfl⟩ := eliminate_step h
    let N := fun i => M (Equiv.swap 0 (pivotRow (ofMatrix M)) i)
    have hswap : (ofMatrix M).swap 0 (pivotRow (ofMatrix M)) = ofMatrix N := swap_ofMatrix M _
    have hfirst : (ofMatrix N)[0] = ofField (N 0) := getElem_ofMatrix N 0 _
    have hentry : (ofMatrix N)[0][0] = finite (N 0 0) := by
      rw [hfirst]
      exact getElem_ofField (N 0) 0 _
    have hN : N 0 0 ≠ 0 := by
      intro hzero
      rw [hswap, hentry, hzero, zero_eq] at hpivot
      exact Bool.false_ne_true (hpivot.symm.trans (beq_iff.2 ⟨le_refl (0 : K), le_refl (0 : K)⟩))
    rw [hswap, reducedBlock_ofMatrix N hN] at hrest
    obtain ⟨order, L, U, hfactorizes⟩ := ih hrest
    rw [hswap, hentry, hfirst, afterFirst_ofField, multipliers_ofMatrix N hN]
    exact ⟨_, _, _, hfactorizes.step (fun _ => rfl) hN⟩

/-! ## Solutions -/

/-- An accepted factorization solves its system. -/
theorem factor_solve {M : Fin n → Fin n → K} {lu : LU (Exact K) n}
    (h : LU.factor (ofMatrix M) = .ok lu) (v : Fin n → K) :
    ∃ w, lu.solve (ofField v) = ofField w ∧ ∀ i, ∑ j, M i j * w j = v i := by
  unfold LU.factor at h
  split at h
  · cases helim : eliminate (roundoff * (ofMatrix M).maxEntry) 0 (ofMatrix M) with
    | error _ =>
      rw [helim] at h
      cases h
    | ok F =>
      rw [helim] at h
      cases h
      obtain ⟨order, L, U, hF⟩ := eliminate_factorizes helim
      have hpermuted : F.permute (ofField v) = ofField fun i => v (order i) := by
        ext i hi
        have hentry := hF.permute (ofField v) ⟨i, hi⟩
        simp only [getElem_position, getElem_ofField] at hentry ⊢
        exact hentry
      obtain ⟨y, hy, hlower⟩ := forwardSolve_eq (fun i => by rw [hF.lower_one]; exact one_ne_zero)
        hF.lower_zero fun i => v (order i)
      obtain ⟨w, hw, hupper⟩ := backwardSolve_eq hF.upper_ne hF.upper_zero y
      refine ⟨w, ?_, fun i => ?_⟩
      · change F.upper.backwardSolve (F.lower.forwardSolve (F.permute (ofField v))) = _
        rw [hpermuted, hF.lower, hF.upper, hy, hw]
      · have hproduct : ∀ i, ∑ j, M (order i) j * w j = v (order i) := by
          intro i
          calc ∑ j, M (order i) j * w j
              = ∑ j, ∑ k, L i k * U k j * w j := by simp only [← hF.product, Finset.sum_mul]
            _ = ∑ k, L i k * ∑ j, U k j * w j := by
                rw [Finset.sum_comm]
                simp only [Finset.mul_sum, mul_assoc]
            _ = v (order i) := by simp only [hupper, hlower]
        have hi := hproduct (order.symm i)
        rwa [Equiv.apply_symm_apply] at hi
  · cases h

/-- A matrix with an accepted factorization takes no two vectors to the same. -/
theorem factor_unique {M : Fin n → Fin n → K} {lu : LU (Exact K) n}
    (h : LU.factor (ofMatrix M) = .ok lu) {w w' : Fin n → K}
    (hw : ∀ i, ∑ j, M i j * w j = ∑ j, M i j * w' j) : w = w' := by
  have hsurjective : Function.Surjective (Matrix.of M).mulVec := by
    intro v
    obtain ⟨w, _, hw⟩ := factor_solve h v
    exact ⟨w, funext hw⟩
  have hinjective := Matrix.mulVec_injective_iff_isUnit.2
    (Matrix.mulVec_surjective_iff_isUnit.1 hsurjective)
  exact hinjective (funext hw)

/-- A system and the system with its equations in other units have the same solution. -/
theorem factor_solve_scaled {A A' : Mat (Exact K) n n} {lu lu' : LU (Exact K) n} (d : Fin n → K)
    (hd : ∀ i, d i ≠ 0) (h : LU.factor A = .ok lu) (h' : LU.factor A' = .ok lu')
    (hA : ∀ i : Fin n, A'[i] = A[i].map (finite (d i) * ·)) {f f' : Vector (Exact K) n}
    (hf : allFinite f = true) (hf' : ∀ i : Fin n, f'[i] = finite (d i) * f[i]) :
    lu'.solve f' = lu.solve f := by
  obtain ⟨M, rfl⟩ := factor_finite h
  obtain ⟨v, rfl⟩ := allFinite_iff.1 hf
  have hA' : A' = ofMatrix fun i j => d i * M i j := by
    ext i hi j hj
    have hrow := congrArg (fun row : Vector (Exact K) n => row[j]) (hA ⟨i, hi⟩)
    simpa using hrow
  have hv' : f' = ofField fun i => d i * v i := by
    ext i hi
    have hentry := hf' ⟨i, hi⟩
    simpa using hentry
  subst hA' hv'
  obtain ⟨w, hw, hsolves⟩ := factor_solve h v
  obtain ⟨w', hw', hsolves'⟩ := factor_solve h' fun i => d i * v i
  rw [hw, hw']
  refine congrArg ofField (factor_unique h fun i => ?_)
  refine mul_left_cancel₀ (hd i) ?_
  calc d i * ∑ j, M i j * w' j
      = ∑ j, d i * M i j * w' j := by simp only [Finset.mul_sum, mul_assoc]
    _ = d i * ∑ j, M i j * w j := by rw [hsolves', hsolves]

end

end AlgebraicLoop
