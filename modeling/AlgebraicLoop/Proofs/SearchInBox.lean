import AlgebraicLoop.Bracket
import AlgebraicLoop.LineSearch
import AlgebraicLoop.Proofs.StepsInBox
import AlgebraicLoop.Proofs.Success
import Mathlib.Tactic.FieldSimp

/-!
# Searches that stay inside the bounds

Without rounding, a line search tries no more than the full step, and a search for a root stays
between the points it began with.

* `steepestDescent_finite`: the step of steepest descent has finite entries;
* `lineSearch_within`: the point that a line search accepts;
* `findRoot_within`: the point that a search for a root ends at.
-/

namespace AlgebraicLoop
set_option autoImplicit false

open Exact

section
variable {K : Type} [Field K] [LinearOrder K] [SquareRoot K] {x y : Exact K}

/-! ## Finite sums and products -/

theorem isFinite_ofSign (s : SignType) : isFinite (ofSign s : Exact K) = false := by
  cases s <;> rfl

theorem isFinite_add : isFinite (x + y) = true ↔ isFinite x = true ∧ isFinite y = true := by
  change isFinite (add x y) = true ↔ _
  cases x <;> cases y <;> simp [add, isFinite_iff]

theorem isFinite_mul : isFinite (x * y) = true ↔ isFinite x = true ∧ isFinite y = true := by
  change isFinite (mul x y) = true ↔ _
  cases x <;> cases y <;> simp [mul, isFinite_ofSign, isFinite_iff]

theorem foldl_finite {ι : Type} {f : Exact K → ι → Exact K} {g : ι → Exact K}
    (hf : ∀ s i, isFinite (f s i) = true ↔ isFinite s = true ∧ isFinite (g i) = true)
    (l : List ι) (a : Exact K) :
    isFinite (l.foldl f a) = true ↔ isFinite a = true ∧ ∀ i ∈ l, isFinite (g i) = true := by
  induction l generalizing a with
  | nil => simp
  | cons i l ih => rw [List.foldl_cons, ih, hf, List.forall_mem_cons, and_assoc]

variable {n : Nat}

theorem isFinite_total (v : Vector (Exact K) n) :
    isFinite (total v) = true ↔ ∀ i : Fin n, isFinite v[i] = true := by
  have hsum := foldl_finite (f := fun s y => s + y) (g := fun y : Exact K => y)
    (fun _ _ => isFinite_add) v.toList 0
  unfold total
  rw [← Vector.foldl_toList, hsum]
  constructor
  · rintro ⟨_, h⟩ i
    exact h _ (by simp)
  · intro h
    refine ⟨by rw [zero_eq]; rfl, fun y hy => ?_⟩
    obtain ⟨i, hi, rfl⟩ := List.getElem_of_mem hy
    simpa using h ⟨i, by simpa using hi⟩

theorem isFinite_merit {f scale : Vector (Exact K) n}
    (h : ∀ i : Fin n, isFinite f[i] = true ∧ isFinite scale[i] = true) :
    isFinite (merit f scale) = true := by
  refine isFinite_mul.2 ⟨rfl, (isFinite_total _).2 fun i => ?_⟩
  rw [getElem_position, Vector.getElem_zipWith]
  have hi := isFinite_mul.2 (h i)
  exact isFinite_mul.2 ⟨hi, hi⟩

/-- A finite product of a column and a vector, added up in four lanes, has finite factors. -/
theorem isFinite_of_interleavedDot {u v : Vector (Exact K) n}
    (h : isFinite (interleavedDot u v) = true) (i : Fin n) : isFinite v[i] = true := by
  have lane : ∀ k, isFinite (laneDot k u v) = true → i.val % 4 = k → isFinite v[i] = true := by
    intro k hk hi
    unfold laneDot at hk
    have hterms := ((foldl_finite (g := fun j : Fin n => u[j] * v[j])
      (fun _ _ => isFinite_add.trans and_comm) _ _).1 hk).2
    have hterm := hterms i (List.mem_filter.2 ⟨List.mem_finRange i, decide_eq_true hi⟩)
    exact (isFinite_mul.1 hterm).2
  unfold interleavedDot at h
  obtain ⟨heven, hodd⟩ := isFinite_add.1 h
  obtain ⟨h0, h2⟩ := isFinite_add.1 heven
  obtain ⟨h1, h3⟩ := isFinite_add.1 hodd
  have hlt : i.val % 4 < 4 := Nat.mod_lt _ (by decide)
  obtain hi | hi | hi | hi : i.val % 4 = 0 ∨ i.val % 4 = 1 ∨ i.val % 4 = 2 ∨ i.val % 4 = 3 := by
    omega
  · exact lane 0 h0 hi
  · exact lane 1 h1 hi
  · exact lane 2 h2 hi
  · exact lane 3 h3 hi

/-- The step of steepest descent has finite entries, wherever there is one. -/
theorem steepestDescent_finite {J : Mat (Exact K) n n} {f scale step : Vector (Exact K) n}
    (h : steepestDescent? J f scale = some step) (i : Fin n) : isFinite step[i] = true := by
  unfold steepestDescent? at h
  dsimp only at h
  generalize hgradient : J.applyTranspose (scale.zipWith (fun w y => -w * w * y) f) = gradient at h
  split at h
  · cases h
  · next hsize =>
    cases h
    obtain ⟨hzero, hsize⟩ := not_or.1 hsize
    have hsize : isFinite (dot gradient gradient) = true := by simpa using hsize
    have hentries : ∀ j : Fin n, isFinite gradient[j] = true := by
      intro j
      have hj := (isFinite_total _).1 hsize j
      rw [getElem_position, Vector.getElem_zipWith] at hj
      exact (isFinite_mul.1 hj).1
    have hweighted : ∀ j : Fin n, isFinite scale[j] = true ∧ isFinite f[j] = true := by
      intro j
      have hi := hentries i
      rw [← hgradient] at hi
      unfold Mat.applyTranspose at hi
      rw [getElem_position, Vector.getElem_map] at hi
      have hj := isFinite_of_interleavedDot hi j
      rw [getElem_position, Vector.getElem_zipWith] at hj
      obtain ⟨hw, hf⟩ := isFinite_mul.1 hj
      exact ⟨(isFinite_mul.1 hw).2, hf⟩
    have hmerit : isFinite (merit f scale) = true := isFinite_merit fun j => (hweighted j).symm
    have hreduction : isFinite (2 * merit f scale) = true := isFinite_mul.2 ⟨rfl, hmerit⟩
    rw [getElem_position, Vector.getElem_map]
    obtain ⟨a, ha⟩ := isFinite_iff.1 (isFinite_mul.2 ⟨hentries i, hreduction⟩)
    obtain ⟨z, hz⟩ := isFinite_iff.1 hsize
    rw [hz, zero_eq] at hzero
    have hz0 : z ≠ 0 := fun h0 => hzero (beq_iff.2 ⟨h0.le, h0.ge⟩)
    change isFinite (gradient[i] * (2 * merit f scale) / dot gradient gradient) = true
    rw [ha, hz, finite_div _ hz0]
    rfl

end

section
variable {K : Type} [Field K] [LinearOrder K] [IsStrictOrderedRing K] [SquareRoot K]
  {σ : Type} {n : Nat} {P : Problem (Exact K) σ n}

/-! ## The line search -/

/-- A part of a step: a number between zero and one. -/
def IsPart (damping : Exact K) : Prop := ∃ a : K, damping = finite a ∧ 0 ≤ a ∧ a ≤ 1

theorem IsPart.half {damping : Exact K} (h : IsPart damping) : IsPart (damping * 0.5) := by
  obtain ⟨a, rfl, h0, h1⟩ := h
  rw [half_eq, finite_mul]
  exact ⟨_, rfl, by linarith, by linarith⟩

/-- A shortened part is between a tenth and a half of the part before it. -/
theorem shorten_between {start now slope next : Exact K} {a : K}
    (hslope : slope < 0 → isFinite slope = true) (h0 : 0 ≤ a)
    (h : shorten? start now slope (finite a) = some next) :
    ∃ b, next = finite b ∧ 1 / 10 * a ≤ b ∧ b ≤ 1 / 2 * a := by
  have hreal : parabolaMinimum start now slope (finite a) ≠ nan := by
    refine isNaN_eq_false_iff.1 (LawfulScalar.parabolaMinimum_real hslope ?_)
    rw [zero_eq]
    exact h0
  have hwithin := within_clamp hreal h
  rw [tenth_eq, half_eq, finite_mul, finite_mul] at hwithin
  obtain ⟨hlow, hhigh⟩ := hwithin
  cases next with
  | nan => exact hlow.elim
  | negInfinity => exact hlow.elim
  | posInfinity => exact hhigh.elim
  | finite b => exact ⟨b, rfl, hlow, hhigh⟩

/-- A shortened part of a step is one. -/
theorem isPart_shorten {start now slope damping next : Exact K}
    (hslope : slope < 0 → isFinite slope = true) (hd : IsPart damping)
    (h : shorten? start now slope damping = some next) : IsPart next := by
  obtain ⟨a, rfl, h0, h1⟩ := hd
  obtain ⟨b, rfl, hlow, hhigh⟩ := shorten_between hslope h0 h
  exact ⟨b, rfl, by linarith, by linarith⟩

/-- Between the two sessions nothing was asked for but the residual at parts of a step. -/
structure Tried (x step : Vector (Exact K) n) (s t : Session (Exact K) σ n) : Prop where
  calls : t.calls.toList = s.calls.toList ++ callsSince s t
  parts : ∀ call ∈ callsSince s t,
    ∃ part answer, IsPart part ∧ call = .evaluate (along x step part) answer

namespace Tried
variable {x step : Vector (Exact K) n} {s t u : Session (Exact K) σ n}

omit [IsStrictOrderedRing K] in
theorem refl (x step : Vector (Exact K) n) (s : Session (Exact K) σ n) : Tried x step s s := by
  have none : callsSince s s = [] := callsSince_of_eq (List.append_nil _).symm
  refine ⟨by rw [none, List.append_nil], fun call hcall => ?_⟩
  rw [none] at hcall
  cases hcall

omit [IsStrictOrderedRing K] in
theorem of_call {part : Exact K} (hpart : IsPart part) {answer : Except EvalFailure (Vector (Exact K) n)}
    (hcalls : t.calls = s.calls.push (.evaluate (along x step part) answer)) : Tried x step s t := by
  have new : t.calls.toList = s.calls.toList ++ [.evaluate (along x step part) answer] := by
    rw [hcalls, Array.toList_push]
  refine ⟨by rw [callsSince_of_eq new, new], fun call hcall => ?_⟩
  rw [callsSince_of_eq new] at hcall
  exact ⟨part, answer, hpart, List.mem_singleton.1 hcall⟩

omit [IsStrictOrderedRing K] in
theorem trans (hst : Tried x step s t) (htu : Tried x step t u) : Tried x step s u := by
  have since := callsSince_trans hst.calls htu.calls
  refine ⟨?_, fun call hcall => ?_⟩
  · rw [since, ← List.append_assoc, ← hst.calls, ← htu.calls]
  · rw [since] at hcall
    obtain hcall | hcall := List.mem_append.1 hcall
    · exact hst.parts call hcall
    · exact htu.parts call hcall

end Tried

/-- The accepted point is a part of the step away from `x`, and the merit has come down enough
there. -/
structure Accepted.Lowered (x step scale : Vector (Exact K) n) (start slope : Exact K)
    (a : Accepted (Exact K) n) : Prop where
  part : IsPart a.damping
  point : a.x = along x step a.damping
  decrease : decreasesEnough start (merit a.f scale) slope a.damping = true

/-- However it ends, a search asks for the residual at parts of the step only, and it accepts none
where the merit has not come down enough. -/
theorem backtrack_after {x step scale : Vector (Exact K) n} {start slope leastDamping : Exact K}
    (hslope : slope < 0 → isFinite slope = true) {budget : Nat} {damping : Exact K}
    (hd : IsPart damping) (s : Session (Exact K) σ n) :
    After (backtrack P x step scale start slope leastDamping budget damping) s
      (fun answer t => Tried x step s t ∧
        ∀ a, answer = .ok a → a.Lowered x step scale start slope)
      fun _ t => Tried x step s t := by
  induction budget generalizing damping s with
  | zero => exact ⟨.refl x step s, fun _ h => by cases h⟩
  | succ budget ih =>
    unfold backtrack
    split
    · exact ⟨.refl x step s, fun _ h => by cases h⟩
    · dsimp only
      rw [after_bind]
      refine (evaluate_calls P _ s).mono (fun answer t _ ht => ?_) fun _ t _ ht =>
        .of_call hd ht.choose_spec
      have first : Tried x step s t := .of_call hd ht.choose_spec
      -- A shorter part goes on from here.
      have onward : ∀ {next : Exact K}, IsPart next →
          After (backtrack P x step scale start slope leastDamping budget next) t
            (fun answer u => Tried x step s u ∧
              ∀ a, answer = .ok a → a.Lowered x step scale start slope)
            fun _ u => Tried x step s u := fun hnext =>
        (ih hnext t).mono (fun _ _ _ hu => ⟨first.trans hu.1, hu.2⟩) fun _ _ _ hu => first.trans hu
      cases answer with
      | error _ => exact onward hd.half
      | ok g =>
        dsimp only
        split
        · next hdecrease =>
          refine ⟨first, fun a ha => ?_⟩
          cases ha
          exact ⟨hd, rfl, hdecrease⟩
        · cases hnext : shorten? start (merit g scale) slope damping with
          | some next => exact onward (isPart_shorten hslope hd hnext)
          | none => exact first

theorem lineSearch_after {x f step : Vector (Exact K) n} {length stepTolerance : Exact K}
    (s : Session (Exact K) σ n) :
    After (lineSearch P x f step length stepTolerance) s
      (fun answer t => Tried x step s t ∧ ∀ a, answer = .ok a →
        a.Lowered x step s.work.residualScale (merit f s.work.residualScale)
          (downhillSlope s.work.jacobian f s.work.residualScale step))
      fun _ t => Tried x step s t := by
  unfold lineSearch
  rw [after_congr (get_bind_apply _ _)]
  dsimp only
  split
  · exact ⟨.refl x step s, fun _ h => nomatch h⟩
  · have hfull : IsPart (1 : Exact K) := ⟨1, one_eq, zero_le_one, le_refl 1⟩
    exact backtrack_after (LawfulScalar.downhillSlope_finite _ _ _ _) hfull s

theorem within_along {lower upper x step : Vector (Exact K) n} {part : Exact K}
    (hpart : IsPart part) {i : Fin n} (hx : Within lower[i] upper[i] x[i])
    (hstep : Fits lower[i] upper[i] x[i] step[i]) :
    Within lower[i] upper[i] (along x step part)[i] := by
  obtain ⟨r, rfl, h0, h1⟩ := hpart
  have hentry : (along x step (finite r))[i] = x[i] + finite r * step[i] :=
    Vector.getElem_zipWith i.isLt
  obtain ⟨d, hd⟩ := isFinite_iff.1 hstep.proper
  rw [hd] at hstep
  rw [hentry, hd, finite_mul, mul_comm]
  exact (hstep.part hx h0 h1).within

/-- A line search along a step that fits accepts a point inside the bounds. -/
theorem lineSearch_within {lower upper x f step : Vector (Exact K) n}
    {length stepTolerance : Exact K} {accepted : Accepted (Exact K) n}
    {s t : Session (Exact K) σ n}
    (h : lineSearch P x f step length stepTolerance s = .ok (.ok accepted) t)
    (hx : ∀ i : Fin n, Within lower[i] upper[i] x[i])
    (hstep : ∀ i : Fin n, Fits lower[i] upper[i] x[i] step[i]) (i : Fin n) :
    Within lower[i] upper[i] accepted.x[i] := by
  have hlowered := ((lineSearch_after s).ok h).2 accepted rfl
  rw [hlowered.point]
  exact within_along hlowered.part (hx i) (hstep i)

/-! ## The search for a root -/

/-- A finite number between the limits. -/
structure Placed (low high x : Exact K) : Prop where
  proper : isFinite x = true
  within : Within low high x

variable {low high xtol : Exact K} {r : RootSearch (Exact K)} {b o tol : K}

/-- A point on the way from one placed point to another. -/
theorem Placed.between {q : K} (hb : Placed low high (finite b))
    (ho : Placed low high (finite o)) (h0 : 0 ≤ q) (h1 : q ≤ 1) :
    Placed low high (finite b + finite ((o - b) * q)) := by
  have hfits : Fits low high (finite b) (finite (o - b)) := by
    refine ⟨rfl, ?_⟩
    rw [finite_add, add_sub_cancel]
    exact ho.within
  have hpart := hfits.part hb.within h0 h1
  exact ⟨rfl, hpart.within⟩

omit [IsStrictOrderedRing K] in
theorem lt_of_lt_smaller {x y z : Exact K} (hx : x ≠ nan) (h : z < smaller x y) : z < x := by
  unfold smaller at h
  split at h
  · exact h
  · next hxy =>
    obtain ⟨hy, hxy⟩ := not_or.1 hxy
    have hy : y ≠ nan := fun hnan => hy (isNaN_iff.2 hnan)
    have hle : y ≤ x := (exact_le_total hx hy).elim
      (fun hle => not_not.1 fun hn => hxy ⟨hle, hn⟩) id
    exact ⟨exact_le_trans h.1 hle, fun hxz => h.2 (exact_le_trans hle hxz)⟩

/-- A number whose double is below some number has a finite absolute value. -/
theorem abs_finite_of_lt {p y : Exact K} (h : 2 * abs p < y) : ∃ a, abs p = finite a ∧ 0 ≤ a := by
  rw [two_eq] at h
  cases p with
  | finite a => exact ⟨|a|, rfl, abs_nonneg a⟩
  | nan => exact absurd (mul_nan _) (ne_nan_of_le h.1).1
  | posInfinity =>
    change finite 2 * posInfinity < y at h
    rw [finite_mul_posInfinity two_pos] at h
    cases y with
    | posInfinity => exact absurd trivial h.2
    | _ => exact h.1.elim
  | negInfinity =>
    change finite 2 * posInfinity < y at h
    rw [finite_mul_posInfinity two_pos] at h
    cases y with
    | posInfinity => exact absurd trivial h.2
    | _ => exact h.1.elim

/-- An interpolated move that is chosen leads towards the opposite point, or vanishes. -/
theorem interpolated_part {p q lastMove : Exact K} {h : K}
    (hlt : 2 * abs p < smaller (3 * finite h * q - abs (finite tol * q)) (abs (lastMove * q))) :
    abs p / q = finite 0 ∨ ∃ c, abs p / q = finite (2 * h * c) ∧ 0 ≤ c ∧ c < 1 := by
  obtain ⟨a, ha, ha0⟩ := abs_finite_of_lt hlt
  rw [ha] at hlt ⊢
  cases q with
  | posInfinity => exact .inl rfl
  | negInfinity => exact .inl rfl
  | nan =>
    rw [mul_nan, mul_nan, mul_nan] at hlt
    exact absurd rfl (ne_nan_of_le hlt.1).2
  | finite q =>
    right
    have hthree : (3 : Exact K) = finite 3 := congrArg finite (Nat.cast_ofNat : ((3 : ℕ) : K) = 3)
    rw [hthree, two_eq, finite_mul, finite_mul, finite_mul, finite_mul, abs_finite, finite_sub] at hlt
    have hlt : 2 * a < 3 * h * q - |tol * q| := finite_lt_finite.1 (lt_of_lt_smaller nofun hlt)
    have htol : 0 ≤ |tol * q| := abs_nonneg _
    have hpos : 0 < h * q := by linarith
    have hq : q ≠ 0 := right_ne_zero_of_mul hpos.ne'
    have hh : h ≠ 0 := left_ne_zero_of_mul hpos.ne'
    refine ⟨a / (2 * (h * q)), ?_, by positivity, ?_⟩
    · rw [finite_div _ hq]
      congr 1
      field_simp
    · rw [div_lt_one (by positivity)]
      linarith

/-- The numerator of an interpolated move is an absolute value. -/
theorem interpolate_eq {α : Type} [Scalar α] (r : RootSearch α) :
    ∃ p q, r.interpolate = (abs p, q) := ⟨_, _, rfl⟩

/-- A chosen move that is longer than the resolution leads towards the opposite point. -/
theorem chooseMove_part {h : K} (hhalf : r.halfWidth = finite h)
    (htol : r.resolution xtol = finite tol) (htol0 : 0 ≤ tol)
    (hlong : abs (r.chooseMove xtol).1 > r.resolution xtol) :
    ∃ c, (r.chooseMove xtol).1 = finite (2 * h * c) ∧ 0 < c ∧ c < 1 := by
  have hpart : (r.chooseMove xtol).1 = finite 0 ∨
      ∃ c, (r.chooseMove xtol).1 = finite (2 * h * c) ∧ 0 ≤ c ∧ c < 1 := by
    have hbisect : ∃ c, finite h = finite (2 * h * c) ∧ 0 ≤ c ∧ c < 1 :=
      ⟨1 / 2, congrArg finite (by ring), by norm_num, by norm_num⟩
    obtain ⟨p, q, hpq⟩ := interpolate_eq r
    unfold RootSearch.chooseMove
    rw [hpq, hhalf, htol]
    dsimp only
    split
    · split
      · next hlt => exact interpolated_part hlt
      · exact .inr hbisect
    · exact .inr hbisect
  have hmoves : ∀ m : K, (r.chooseMove xtol).1 = finite m → m ≠ 0 := by
    rintro m hm rfl
    rw [hm, htol, abs_finite, abs_zero] at hlong
    exact absurd (finite_lt_finite.1 hlong) (not_lt.2 htol0)
  obtain hzero | ⟨c, hc, h0, h1⟩ := hpart
  · exact absurd rfl (hmoves 0 hzero)
  · exact ⟨c, hc, h0.lt_of_ne' (right_ne_zero_of_mul (hmoves _ hc)), h1⟩

/-- The ends of a search that goes on are finite, and farther apart than its resolution. -/
structure RootSearch.Spread (r : RootSearch (Exact K)) (xtol : Exact K) (b o tol : K) : Prop where
  best : r.best.x = finite b
  opposite : r.opposite.x = finite o
  resolution : r.resolution xtol = finite tol
  nonneg : 0 ≤ tol
  wide : tol < |1 / 2 * (o - b)|

namespace RootSearch

theorem spread_of_open (hbest : isFinite r.best.x = true) (hopposite : isFinite r.opposite.x = true)
    (hxtol : 0 ≤ xtol) (hopen : r.finished xtol = false) : ∃ b o tol, r.Spread xtol b o tol := by
  obtain ⟨b, hb⟩ := isFinite_iff.1 hbest
  obtain ⟨o, ho⟩ := isFinite_iff.1 hopposite
  have hwide := (not_or.1 (of_decide_eq_false hopen)).1
  rw [zero_eq] at hxtol
  cases xtol with
  | nan => exact hxtol.elim
  | negInfinity => exact hxtol.elim
  | posInfinity =>
    -- The resolution is infinite as well.
    refine absurd ?_ hwide
    unfold resolution halfWidth
    rw [hb, ho, half_eq, two_eq, roundoff_eq, finite_mul_posInfinity (by norm_num), finite_sub,
      finite_mul, abs_finite]
    trivial
  | finite t =>
    have ht : 0 ≤ t := hxtol
    have htol : r.resolution (finite t) = finite (2 * (1 / 2 ^ 52) * |b| + 1 / 2 * t) := by
      unfold resolution
      rw [hb, two_eq, half_eq, roundoff_eq, abs_finite, finite_mul, finite_mul, finite_mul,
        finite_add]
    refine ⟨b, o, _, hb, ho, htol, by positivity, ?_⟩
    unfold halfWidth at hwide
    rw [htol, hb, ho, half_eq, finite_sub, finite_mul, abs_finite] at hwide
    exact not_le.1 hwide

namespace Spread

theorem ne (h : r.Spread xtol b o tol) : o - b ≠ 0 := by
  intro h0
  have hwide := h.wide
  rw [h0, mul_zero, abs_zero] at hwide
  exact absurd h.nonneg (not_le.2 hwide)

theorem halfWidth (h : r.Spread xtol b o tol) : r.halfWidth = finite (1 / 2 * (o - b)) := by
  unfold RootSearch.halfWidth
  rw [h.best, h.opposite, half_eq, finite_sub, finite_mul]

/-- The next point to evaluate lies on the way from the best point to the opposite one. It is the
best point itself only where there is no tolerance, and no move. -/
theorem probe (h : r.Spread xtol b o tol) :
    ∃ c, r.probe xtol = finite (b + (o - b) * c) ∧ 0 ≤ c ∧ c < 1 ∧
      (c = 0 → tol = 0 ∧ ¬ abs (r.chooseMove xtol).1 > r.resolution xtol) := by
  have hne : 1 / 2 * (o - b) ≠ 0 := mul_ne_zero (by norm_num) h.ne
  have hpos : 0 < |1 / 2 * (o - b)| := abs_pos.2 hne
  unfold RootSearch.probe
  dsimp only
  rw [h.best]
  split
  · next hlong =>
    obtain ⟨c, hc, h0, h1⟩ := chooseMove_part h.halfWidth h.resolution h.nonneg hlong
    refine ⟨c, ?_, h0.le, h1, fun hzero => absurd hzero h0.ne'⟩
    rw [hc, finite_add]
    congr 1
    ring
  · next hshort =>
    have hpart : tol / |1 / 2 * (o - b)| < 1 := (div_lt_one hpos).2 h.wide
    have hpart0 : 0 ≤ tol / |1 / 2 * (o - b)| := div_nonneg h.nonneg hpos.le
    refine ⟨tol / |1 / 2 * (o - b)| / 2, ?_, by linarith, by linarith, fun hzero => ⟨?_, hshort⟩⟩
    · rw [h.resolution, h.halfWidth, copySign_eq_mul h.nonneg hne, finite_add]
      congr 1
      ring
    · have hzero : tol / |1 / 2 * (o - b)| = 0 := by linarith
      exact (div_eq_zero_iff.1 hzero).resolve_right hpos.ne'

/-- Where the previous point is the opposite one, the secant is taken, and it moves. -/
theorem long_of_same (h : r.Spread xtol b o 0) {y z : K} (hy : r.best.f = finite y)
    (hz : r.previous.f = finite z) (hy0 : y ≠ 0)
    (hsame : (r.previous.x == r.opposite.x) = true) :
    abs (r.chooseMove xtol).1 > r.resolution xtol := by
  have hne : 1 / 2 * (o - b) ≠ 0 := mul_ne_zero (by norm_num) h.ne
  have hhalf : finite 0 < abs (finite (1 / 2 * (o - b)) : Exact K) :=
    finite_lt_finite.2 (abs_pos.2 hne)
  unfold chooseMove
  rw [h.halfWidth, h.resolution]
  dsimp only
  split
  · next hcond =>
    have hz0 : z ≠ 0 := by
      have hgreater := hcond.2
      rw [hy, hz, abs_finite, abs_finite] at hgreater
      exact abs_pos.1 ((abs_nonneg y).trans_lt (finite_lt_finite.1 hgreater))
    have hsecant : ∃ q, r.interpolate = (finite |2 * (1 / 2 * (o - b)) * (y / z)|, finite q) := by
      unfold interpolate
      dsimp only
      rw [if_pos hsame, hy, hz, h.halfWidth, finite_div _ hz0, two_eq, one_eq, finite_mul, finite_mul,
        finite_sub]
      dsimp only
      split
      · exact ⟨_, rfl⟩
      · exact ⟨_, rfl⟩
    obtain ⟨q, hq⟩ := hsecant
    rw [hq]
    dsimp only
    split
    · next hlt =>
      have hthree : (3 : Exact K) = finite 3 :=
        congrArg finite (Nat.cast_ofNat : ((3 : ℕ) : K) = 3)
      rw [hthree, two_eq, finite_mul, finite_mul, finite_mul, finite_mul, abs_finite,
        finite_sub] at hlt
      have hlt := finite_lt_finite.1 (lt_of_lt_smaller nofun hlt)
      have hq0 : q ≠ 0 := by
        rintro rfl
        rw [mul_zero, mul_zero, abs_zero, sub_zero] at hlt
        exact absurd hlt (not_lt.2 (by positivity))
      rw [finite_div _ hq0, abs_finite]
      have hmove : 2 * (1 / 2 * (o - b)) * (y / z) ≠ 0 :=
        mul_ne_zero (mul_ne_zero two_ne_zero hne) (div_ne_zero hy0 hz0)
      exact finite_lt_finite.2 (abs_pos.2 (div_ne_zero (abs_ne_zero.2 hmove) hq0))
    · exact hhalf
  · exact hhalf

end Spread

/-- The next point to evaluate lies between the best point and the opposite one. -/
theorem placed_probe (hbest : Placed low high r.best.x) (hopposite : Placed low high r.opposite.x)
    (hxtol : 0 ≤ xtol) (hopen : r.finished xtol = false) : Placed low high (r.probe xtol) := by
  obtain ⟨b, o, tol, hspread⟩ := spread_of_open hbest.proper hopposite.proper hxtol hopen
  obtain ⟨c, hc, h0, h1, _⟩ := hspread.probe
  rw [hspread.best] at hbest
  rw [hspread.opposite] at hopposite
  rw [hc, ← finite_add]
  exact hbest.between hopposite h0 h1.le

end RootSearch

theorem rootSearch_within {h1 : n = 1} {budget done : Nat} {found : RootFound (Exact K)}
    {t u : Session (Exact K) σ n} (hr : r.Of fun p => Placed low high p.x)
    (hrun : (RootSearch.run (evaluateSingle P h1) 0 budget done r).run t = .ok (.ok found) u) :
    Placed low high found.point.x := by
  induction budget generalizing done r t with
  | zero =>
    cases hrun
    exact hr.best
  | succ budget ih =>
    have ha := hr.arrange
    unfold RootSearch.run at hrun
    dsimp only at hrun
    split at hrun
    · cases hrun
      exact ha.best
    · next hopen =>
      rw [ExceptT.run_bind] at hrun
      obtain ⟨answer, v, _, hrun⟩ := bind_eq_ok.1 hrun
      cases answer with
      | error _ => cases hrun
      | ok value =>
        have hzero : (0 : Exact K) ≠ nan := zero_eq (K := K) ▸ finite_ne_nan 0
        have hprobe := RootSearch.placed_probe ha.best ha.opposite (exact_le_self hzero)
          (Bool.eq_false_iff.2 hopen)
        have hnext : (r.arrange.advance 0 value).Of fun p => Placed low high p.x :=
          ⟨hprobe, ha.best, ha.opposite⟩
        exact ih hnext hrun

/-- A search between two points ends between any limits that both are inside of. -/
theorem findRoot_within {h1 : n = 1} {below above : Sample (Exact K)}
    {found : RootFound (Exact K)} {t u : Session (Exact K) σ n}
    (hbelow : Placed low high below.x) (habove : Placed low high above.x)
    (hrun : (findRoot (evaluateSingle P h1) below above 0).run t = .ok (.ok found) u) :
    Placed low high found.point.x := by
  unfold findRoot at hrun
  split at hrun
  · cases hrun
    exact hbelow
  · exact rootSearch_within ⟨habove, hbelow, habove⟩ hrun

end

end AlgebraicLoop
