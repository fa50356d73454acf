import AlgebraicLoop.Proofs.ExactElimination
import AlgebraicLoop.Proofs.StepsInBox

/-!
# The nearest point of a box

A point is moved into the bounds in two ways: each unknown by itself, or by the finite bounds of the
box one after another. Without rounding, and where the lower bounds are below the upper ones, both
lead to the nearest point between the bounds.

* `nearest`: the nearest number between two bounds;
* `project_ofField`, `clamp_ofBounds`: the two ways to move a point into the bounds.
-/

namespace AlgebraicLoop
set_option autoImplicit false

open Exact

section
variable {K : Type} [Field K] [LinearOrder K] [IsStrictOrderedRing K] [SquareRoot K] {n : Nat}
  {low high : Exact K} {r : K} {lower upper : Vector (Exact K) n}

/-! ## The nearest number -/

/-- The number between the bounds that is nearest to `r`. -/
def nearest (low high : Exact K) (r : K) : Exact K :=
  if high < finite r then high else if finite r < low then low else finite r

theorem nearest_inside (h : Within low high (finite r)) : nearest low high r = finite r := by
  unfold nearest
  rw [if_neg (LawfulScalar.not_lt_of_le h.2), if_neg (LawfulScalar.not_lt_of_le h.1)]

/-- It is a number, and another one if `r` lies outside. -/
theorem nearest_finite (h : low < high) (r : K) :
    ∃ a, nearest low high r = finite a ∧ (a = r → Within low high (finite r)) := by
  unfold nearest
  by_cases habove : high < finite r
  · rw [if_pos habove]
    obtain ⟨c, rfl⟩ := isFinite_iff.1 (finite_of_between h habove)
    refine ⟨c, rfl, fun hc => ?_⟩
    subst hc
    exact absurd habove (LawfulScalar.lt_asymm habove)
  · rw [if_neg habove]
    have hhigh : finite r ≤ high :=
      exact_le_of_not_lt (ne_nan_of_le h.1).2 (finite_ne_nan r) habove
    by_cases hbelow : finite r < low
    · rw [if_pos hbelow]
      obtain ⟨c, rfl⟩ := isFinite_iff.1 (finite_of_between hbelow h)
      refine ⟨c, rfl, fun hc => ?_⟩
      subst hc
      exact absurd hbelow (LawfulScalar.lt_asymm hbelow)
    · rw [if_neg hbelow]
      have hlow : low ≤ finite r :=
        exact_le_of_not_lt (finite_ne_nan r) (ne_nan_of_le h.1).1 hbelow
      exact ⟨r, rfl, fun _ => ⟨hlow, hhigh⟩⟩

omit [IsStrictOrderedRing K] in
theorem exact_le_antisymm {x y : Exact K} (h : x ≤ y) (h' : y ≤ x) : x = y := by
  cases x with
  | finite a =>
    cases y with
    | finite b => exact congrArg finite (le_antisymm h h')
    | _ => first | exact h.elim | exact h'.elim
  | _ => cases y <;> first | rfl | exact h.elim | exact h'.elim

theorem smaller_larger (h : low < high) (r : K) :
    smaller (larger (finite r) low) high = nearest low high r := by
  have hhigh : high ≠ nan := (ne_nan_of_le h.1).2
  have hreal : isNaN high = false := isNaN_eq_false_iff.2 hhigh
  have hnumber : isNaN (finite r : Exact K) = false := isNaN_eq_false_iff.2 (finite_ne_nan r)
  unfold nearest smaller larger
  rw [hnumber, hreal]
  simp only [Bool.false_eq_true, false_or]
  by_cases hbelow : finite r < low
  · have habove : ¬ high < finite r := fun habove =>
      LawfulScalar.lt_asymm h (LawfulScalar.lt_of_lt_of_le habove hbelow.1)
    rw [if_pos hbelow, if_pos h, if_neg habove]
  · rw [if_neg hbelow]
    by_cases habove : high < finite r
    · rw [if_neg (LawfulScalar.lt_asymm habove), if_pos habove]
    · rw [if_neg habove]
      by_cases hinside : finite r < high
      · rw [if_pos hinside]
      · rw [if_neg hinside]
        exact exact_le_antisymm (exact_le_of_not_lt (finite_ne_nan r) hhigh hinside)
          (exact_le_of_not_lt hhigh (finite_ne_nan r) habove)

/-! ## The nearest point -/

/-- A point that is moved into the bounds goes to the nearest one there. -/
theorem project_ofField (h : ∀ i : Fin n, lower[i] < upper[i]) (r : Fin n → K) :
    project lower upper (ofField r) = Vector.ofFn fun i => nearest lower[i] upper[i] (r i) := by
  refine Vector.ext fun k hk => ?_
  have hinside := smaller_larger (h ⟨k, hk⟩) (r ⟨k, hk⟩)
  unfold project
  rw [Vector.getElem_ofFn, Vector.getElem_ofFn]
  simp only [getElem_position, getElem_ofField] at hinside ⊢
  rw [hinside]
  split
  · next hsame =>
    obtain ⟨hle, hge⟩ := beq_iff.1 hsame
    exact exact_le_antisymm hge hle
  · rfl

omit [IsStrictOrderedRing K] in
/-- Bounds clamp one after another. -/
theorem clamp_append (bounds bounds' : List (Bound (Exact K) n)) (limits x : Vector (Exact K) n) :
    Box.clamp ⟨bounds ++ bounds', limits⟩ x =
      Box.clamp ⟨bounds', limits⟩ (Box.clamp ⟨bounds, limits⟩ x) := List.foldl_append ..

omit [IsStrictOrderedRing K] in
/-- Only a finite upper bound is kept. -/
theorem clamp_upper (h : low < high) (i : Fin n) (limits : Vector (Exact K) n) (v : Fin n → K) :
    Box.clamp ⟨if isFinite high then [{ unknown := i, side := .upper, value := high }] else [],
        limits⟩ (ofField v) =
      if high < finite (v i) then (ofField v).set i high i.isLt else ofField v := by
  have hx : (ofField v)[i] = finite (v i) := getElem_ofField v i i.isLt
  by_cases hhigh : isFinite high = true
  · rw [if_pos hhigh]
    change (if decide ((ofField v)[i] > high) = true then _ else _) = _
    rw [hx]
    simp only [decide_eq_true_eq]
  · rw [if_neg hhigh, if_neg fun habove => hhigh (finite_of_between h habove)]
    rfl

omit [IsStrictOrderedRing K] in
/-- Only a finite lower bound is kept. -/
theorem clamp_lower (h : low < high) (i : Fin n) (limits : Vector (Exact K) n) (v : Fin n → K) :
    Box.clamp ⟨if isFinite low then [{ unknown := i, side := .lower, value := low }] else [],
        limits⟩ (ofField v) =
      if finite (v i) < low then (ofField v).set i low i.isLt else ofField v := by
  have hx : (ofField v)[i] = finite (v i) := getElem_ofField v i i.isLt
  by_cases hlow : isFinite low = true
  · rw [if_pos hlow]
    change (if decide ((ofField v)[i] < low) = true then _ else _) = _
    rw [hx]
    simp only [decide_eq_true_eq]
  · rw [if_neg hlow, if_neg fun hbelow => hlow (finite_of_between hbelow h)]
    rfl

/-- The bounds of one unknown move it to the nearest number between them. -/
theorem clamp_boundsOf (h : low < high) (i : Fin n) (limits : Vector (Exact K) n) {v : Fin n → K}
    {a : K} (ha : nearest low high (v i) = finite a) :
    Box.clamp ⟨Box.boundsOf low high i, limits⟩ (ofField v) = ofField (Function.update v i a) := by
  unfold Box.boundsOf
  rw [clamp_append, clamp_upper h]
  unfold nearest at ha
  by_cases habove : high < finite (v i)
  · rw [if_pos habove] at ha ⊢
    subst ha
    rw [ofField_set, clamp_lower h, Function.update_self, if_neg (LawfulScalar.lt_asymm h)]
  · rw [if_neg habove] at ha ⊢
    rw [clamp_lower h]
    by_cases hbelow : finite (v i) < low
    · rw [if_pos hbelow] at ha ⊢
      subst ha
      rw [ofField_set]
    · rw [if_neg hbelow] at ha ⊢
      cases ha
      rw [Function.update_eq_self]

theorem clamp_flatMap (h : ∀ i : Fin n, lower[i] < upper[i]) (limits : Vector (Exact K) n)
    (is : List (Fin n)) (his : is.Nodup) {v a : Fin n → K}
    (ha : ∀ i ∈ is, nearest lower[i] upper[i] (v i) = finite (a i)) :
    Box.clamp ⟨is.flatMap fun i => Box.boundsOf lower[i] upper[i] i, limits⟩ (ofField v) =
      ofField fun i => if i ∈ is then a i else v i := by
  induction is generalizing v with
  | nil => simp [Box.clamp]
  | cons i is ih =>
    obtain ⟨hnew, his⟩ := List.nodup_cons.1 his
    have hrest : ∀ k ∈ is, nearest lower[k] upper[k] (Function.update v i (a i) k) =
        finite (a k) := fun k hk => by
      have hne : k ≠ i := fun h => hnew (h ▸ hk)
      rw [Function.update_of_ne hne]
      exact ha k (List.mem_cons_of_mem i hk)
    rw [List.flatMap_cons, clamp_append, clamp_boundsOf (h i) i limits (ha i List.mem_cons_self),
      ih his hrest]
    congr 1
    funext k
    by_cases hk : k = i
    · subst hk
      simp [hnew]
    · simp [hk]

/-- So does one that is clamped into their box. -/
theorem clamp_ofBounds (h : ∀ i : Fin n, lower[i] < upper[i]) (factor : Option (Exact K))
    (r : Fin n → K) :
    (Box.ofBounds lower upper factor).clamp (ofField r) =
      Vector.ofFn fun i => nearest lower[i] upper[i] (r i) := by
  choose a ha _ using fun i => nearest_finite (h i) (r i)
  unfold Box.ofBounds
  rw [clamp_flatMap h _ _ (List.nodup_finRange n) fun i _ => ha i]
  refine Vector.ext fun k hk => ?_
  rw [getElem_ofField, Vector.getElem_ofFn, if_pos (List.mem_finRange _)]
  exact (ha ⟨k, hk⟩).symm

end

end AlgebraicLoop
