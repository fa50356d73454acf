import AlgebraicLoop.Proofs.Exact
import AlgebraicLoop.Proofs.Nominals
import AlgebraicLoop.Session

/-!
# Steps that stay inside the bounds

Without rounding, every step that a solve searches along stays inside the bounds, as a whole and in
part.

* `Within`, `Fits`: numbers inside limits, and moves that lead to such numbers;
* `within_project`, `within_nominalGuess`: points that are moved into the bounds;
* `Limiter.Sound`, `fits_limitStep`: a limited step.
-/

namespace AlgebraicLoop
set_option autoImplicit false

/-- The number lies between the limits. -/
def Within {α : Type} [Scalar α] (low high x : α) : Prop := low ≤ x ∧ x ≤ high

/-- The move is finite and leads from `x` to a number between the limits. -/
structure Fits {α : Type} [Scalar α] (low high x move : α) : Prop where
  proper : isFinite move = true
  within : Within low high (x + move)

open Exact

section
variable {K : Type} [Field K] [LinearOrder K] [SquareRoot K] {low high x y move : Exact K}

theorem Within.ne_nan (h : Within low high x) : x ≠ nan := (ne_nan_of_le h.1).2

theorem neg_ne_nan (h : x ≠ nan) : -x ≠ nan := by
  cases x with
  | nan => exact absurd rfl h
  | _ => nofun

end

section
variable {K : Type} [Field K] [LinearOrder K] [IsStrictOrderedRing K] [SquareRoot K] {n : Nat}
  {low high x y move : Exact K} {a d r : K}

/-! ## Points inside the bounds -/

theorem exact_le_self (h : x ≠ nan) : x ≤ x := LawfulScalar.le_self (isNaN_eq_false_iff.2 h)

theorem exact_le_of_not_lt (hx : x ≠ nan) (hy : y ≠ nan) (h : ¬ x < y) : y ≤ x :=
  LawfulScalar.le_of_not_lt (isNaN_eq_false_iff.2 hx) (isNaN_eq_false_iff.2 hy) h

/-- The nearest number inside the limits. -/
theorem within_inside (hordered : low ≤ high) (x : Exact K) :
    Within low high (smaller (larger x low) high) := by
  obtain ⟨hlow, hhigh⟩ := ne_nan_of_le hordered
  have habove : low ≤ larger x low := LawfulScalar.le_larger_right (exact_le_self hlow)
  unfold smaller
  split
  · next h =>
    obtain h | h := h
    · exact absurd (isNaN_iff.1 h) hhigh
    · exact ⟨habove, h.1⟩
  · exact ⟨hordered, exact_le_self hhigh⟩

theorem within_project {lower upper : Vector (Exact K) n} {i : Fin n}
    (hordered : lower[i] ≤ upper[i]) (x : Vector (Exact K) n) :
    Within lower[i] upper[i] (project lower upper x)[i] := by
  have hinside := within_inside hordered x[i]
  have hentry : (project lower upper x)[i] =
      if smaller (larger x[i] lower[i]) upper[i] == x[i] then x[i]
      else smaller (larger x[i] lower[i]) upper[i] := Vector.getElem_ofFn i.isLt
  rw [hentry]
  split
  · next h =>
    obtain ⟨hle, hge⟩ := beq_iff.1 h
    exact ⟨exact_le_trans hinside.1 hle, exact_le_trans hge hinside.2⟩
  · exact hinside

theorem within_clamp (hx : x ≠ nan) (h : clamp? x low high = some y) : Within low high y := by
  unfold clamp? at h
  split at h
  · next hordered =>
    obtain ⟨hlow, hhigh⟩ := ne_nan_of_le hordered
    cases h
    split
    · exact ⟨exact_le_self hlow, hordered⟩
    · next hbelow =>
      split
      · exact ⟨hordered, exact_le_self hhigh⟩
      · next habove =>
        exact ⟨exact_le_of_not_lt hx hlow hbelow, exact_le_of_not_lt hhigh hx habove⟩
  · cases h

omit [IsStrictOrderedRing K] in
/-- What lies strictly between two numbers is finite. -/
theorem finite_of_between (hlow : low < x) (hhigh : x < high) : isFinite x = true := by
  cases x with
  | finite a => rfl
  | nan => exact absurd rfl (ne_nan_of_le hlow.1).2
  | posInfinity =>
    have habove : high ≤ posInfinity := by
      have hne := (ne_nan_of_le hhigh.1).2
      cases high <;> first | exact absurd rfl hne | trivial
    exact absurd habove hhigh.2
  | negInfinity =>
    have hbelow : negInfinity ≤ low := by
      have hne := (ne_nan_of_le hlow.1).1
      cases low <;> first | exact absurd rfl hne | trivial
    exact absurd hbelow hlow.2

/-- The nominal value that is used for an unknown is finite. -/
theorem repairNominal_finite (v low high initial : Exact K) :
    isFinite (repairNominal v low high initial) = true := by
  unfold repairNominal
  split
  · next h =>
    simp only [nominalUsable, Bool.and_eq_true] at h
    exact h.1.1.2
  split
  · next h => exact finite_of_between h.1 h.2.1
  split
  · next hlow =>
    obtain ⟨a, rfl⟩ := isFinite_iff.1 hlow
    split
    · next hhigh =>
      obtain ⟨b, rfl⟩ := isFinite_iff.1 hhigh
      unfold intervalNominal
      rw [half_eq, percent_eq]
      dsimp only
      split
      · rfl
      · rfl
    · unfold nominalAbove
      rw [one_eq, roundoff_eq]
      split
      · rfl
      split
      · rfl
      · rfl
  split
  · next hhigh =>
    obtain ⟨b, rfl⟩ := isFinite_iff.1 hhigh
    unfold nominalBelow
    rw [one_eq, roundoff_eq]
    split
    · rfl
    split
    · rfl
    · rfl
  · rw [one_eq]
    rfl

theorem within_nominalGuess {nominal lower upper x : Vector (Exact K) n}
    (h : nominalGuess? nominal lower upper true = some x) {i : Fin n} (hnominal : nominal[i] ≠ nan) :
    Within lower[i] upper[i] x[i] := by
  have hi := nominalGuess?_eq_some h i
  unfold nominalStart? at hi
  refine within_clamp ?_ hi
  split
  · exact hnominal
  · exact neg_ne_nan hnominal

/-! ## Parts of a move -/

theorem le_add_part (h : low ≤ x) (h' : low ≤ x + finite d) (h0 : 0 ≤ r) (h1 : r ≤ 1) :
    low ≤ x + finite (d * r) := by
  cases x with
  | nan => exact absurd rfl (ne_nan_of_le h).2
  | posInfinity => exact h
  | negInfinity => exact h
  | finite a =>
    cases low with
    | nan => exact h.elim
    | posInfinity => exact h.elim
    | negInfinity => trivial
    | finite l =>
      have ha : l ≤ a := h
      have had : l ≤ a + d := h'
      change l ≤ a + d * r
      nlinarith

theorem add_part_le (h : x ≤ high) (h' : x + finite d ≤ high) (h0 : 0 ≤ r) (h1 : r ≤ 1) :
    x + finite (d * r) ≤ high := by
  cases x with
  | nan => exact absurd rfl (ne_nan_of_le h).1
  | posInfinity => exact h
  | negInfinity => exact h
  | finite a =>
    cases high with
    | nan => exact h.elim
    | negInfinity => exact h.elim
    | posInfinity => trivial
    | finite u =>
      have ha : a ≤ u := h
      have had : a + d ≤ u := h'
      change a + d * r ≤ u
      nlinarith

/-- A part of a move that fits does. -/
theorem Fits.part (hx : Within low high x) (h : Fits low high x (finite d)) (h0 : 0 ≤ r)
    (h1 : r ≤ 1) : Fits low high x (finite (d * r)) :=
  ⟨rfl, le_add_part hx.1 h.within.1 h0 h1, add_part_le hx.2 h.within.2 h0 h1⟩

omit [IsStrictOrderedRing K] in
theorem exact_add_zero (x : Exact K) : x + finite 0 = x := by
  cases x with
  | finite a => exact congrArg finite (add_zero a)
  | _ => rfl

omit [IsStrictOrderedRing K] in
theorem le_add_of_not_finite (h : low ≤ x) (hlow : isFinite low = false) (d : K) :
    low ≤ x + finite d := by
  cases low with
  | finite _ => cases hlow
  | nan => exact absurd rfl (ne_nan_of_le h).1
  | negInfinity =>
    cases x with
    | nan => exact h.elim
    | _ => trivial
  | posInfinity =>
    cases x with
    | posInfinity => trivial
    | _ => exact h.elim

omit [IsStrictOrderedRing K] in
theorem add_le_of_not_finite (h : x ≤ high) (hhigh : isFinite high = false) (d : K) :
    x + finite d ≤ high := by
  cases high with
  | finite _ => cases hhigh
  | nan => exact absurd rfl (ne_nan_of_le h).2
  | posInfinity =>
    cases x with
    | nan => exact h.elim
    | _ => trivial
  | negInfinity =>
    cases x with
    | negInfinity => trivial
    | _ => exact h.elim

/-- A length in the direction of a move is a multiple of the move. -/
theorem copySign_eq_mul {c : K} (hc : 0 ≤ c) (hd : d ≠ 0) :
    copySign (finite c) (finite d) = finite (d * (c / |d|)) := by
  change (if d ≤ 0 ∧ ¬ 0 ≤ d then finite (-|c|) else finite |c|) = _
  rw [abs_of_nonneg hc]
  split
  · next hneg =>
    have hd : d < 0 := not_le.1 hneg.2
    rw [abs_of_neg hd, div_neg, mul_neg, mul_div_cancel₀ _ hd.ne]
  · next hneg =>
    have hd : 0 < d := by
      obtain hd | hd := lt_or_gt_of_ne hd
      · exact absurd ⟨hd.le, not_le.2 hd⟩ hneg
      · exact hd
    rw [abs_of_pos hd, mul_div_cancel₀ _ hd.ne']

/-- A part of a move, in the same direction. -/
theorem copySign_eq_part {c : K} (hc : 0 ≤ c) (hd : d ≠ 0) (hle : c ≤ |d|) :
    ∃ r, copySign (finite c) (finite d) = finite (d * r) ∧ 0 ≤ r ∧ r ≤ 1 :=
  ⟨c / |d|, copySign_eq_mul hc hd, by positivity, div_le_one_of_le₀ hle (abs_nonneg d)⟩

/-! ## Bounds -/

/-- The bound belongs to the given ones. -/
structure Bound.Among (lower upper : Vector (Exact K) n) (b : Bound (Exact K) n) : Prop where
  proper : isFinite b.value = true
  value : b.value = match b.side with
    | .upper => upper[b.unknown]
    | .lower => lower[b.unknown]

/-- The number is on the right side of the bound. -/
def Bound.Admits {α : Type} [Scalar α] {n : Nat} (b : Bound α n) (x : α) : Prop :=
  match b.side with
  | .upper => x ≤ b.value
  | .lower => b.value ≤ x

theorem shortfall_eq : ∃ c : K, (1 - roundoff : Exact K) = finite c ∧ 0 < c ∧ c ≤ 1 := by
  have hpos : (0 : K) < 1 / 2 ^ 52 := by positivity
  have hlt : (1 : K) / 2 ^ 52 < 1 := by norm_num
  exact ⟨1 - 1 / 2 ^ 52, by rw [one_eq, roundoff_eq, finite_sub], by linarith, by linarith⟩

/-- From a point inside the bounds a bound is a finite distance ahead, or out of reach. -/
theorem Bound.Among.distance_cases {lower upper : Vector (Exact K) n} {b : Bound (Exact K) n}
    (hb : b.Among lower upper) (hx : Within lower[b.unknown] upper[b.unknown] x) :
    (∃ a v c : K, x = finite a ∧ b.value = finite v ∧ b.distance x = finite ((v - a) * c) ∧
      0 < c ∧ c ≤ 1 ∧ b.Admits x) ∨
      (b.violatedBy (b.distance x) = false ∧
        ∀ m : K, b.crossedBy (b.distance x) (finite m) = false ∧ b.Admits (x + finite m)) := by
  obtain ⟨v, hv⟩ := isFinite_iff.1 hb.proper
  obtain ⟨c, hc, hpos, hle⟩ := shortfall_eq (K := K)
  have hvalue := hb.value
  unfold Bound.distance Bound.Admits Bound.violatedBy Bound.crossedBy
  rw [hc]
  cases hside : b.side with
  | upper =>
    rw [hside, hv] at hvalue
    have hup : x ≤ finite v := hvalue ▸ hx.2
    cases x with
    | nan => exact absurd rfl (ne_nan_of_le hup).1
    | posInfinity => exact hup.elim
    | finite a =>
      refine .inl ⟨a, v, c, rfl, hv, ?_, hpos, hle, ?_⟩
      · rw [hv, finite_sub, finite_mul]
      · rw [hv]
        exact hup
    | negInfinity =>
      have hfar : ((finite v - negInfinity) * finite c : Exact K) = posInfinity := by
        rw [exact_mul_comm]
        exact finite_mul_posInfinity hpos
      rw [hv, hfar]
      exact .inr ⟨rfl, fun m => ⟨rfl, trivial⟩⟩
  | lower =>
    rw [hside, hv] at hvalue
    have hdown : finite v ≤ x := hvalue ▸ hx.1
    cases x with
    | nan => exact absurd rfl (ne_nan_of_le hdown).2
    | negInfinity => exact hdown.elim
    | finite a =>
      refine .inl ⟨a, v, c, rfl, hv, ?_, hpos, hle, ?_⟩
      · rw [hv, finite_sub, finite_mul]
      · rw [hv]
        exact hdown
    | posInfinity =>
      have hfar : ((finite v - posInfinity) * finite c : Exact K) = negInfinity := by
        rw [exact_mul_comm]
        exact finite_mul_negInfinity hpos
      rw [hv, hfar]
      exact .inr ⟨rfl, fun m => ⟨rfl, trivial⟩⟩

/-- A point inside the bounds violates none. -/
theorem Bound.Among.not_violated {lower upper : Vector (Exact K) n} {b : Bound (Exact K) n}
    (hb : b.Among lower upper) (hx : Within lower[b.unknown] upper[b.unknown] x) :
    b.violatedBy (b.distance x) = false := by
  obtain ⟨a, v, c, rfl, hv, hdistance, hpos, _, hadmits⟩ | ⟨h, _⟩ := hb.distance_cases hx
  · rw [hdistance]
    unfold Bound.Admits at hadmits
    unfold Bound.violatedBy
    cases hside : b.side with
    | upper =>
      rw [hside, hv] at hadmits
      have hav : a ≤ v := hadmits
      refine decide_eq_false ?_
      rw [zero_eq]
      exact fun h => absurd (finite_lt_finite.1 h) (not_lt_of_ge (by nlinarith))
    | lower =>
      rw [hside, hv] at hadmits
      have hva : v ≤ a := hadmits
      refine decide_eq_false ?_
      rw [zero_eq]
      exact fun h => absurd (finite_lt_finite.1 h) (not_lt_of_ge (by nlinarith))
  · exact h

/-- A move that does not pass a bound leads to its right side. -/
theorem Bound.Among.admits_of_not_crossed {lower upper : Vector (Exact K) n} {b : Bound (Exact K) n}
    (hb : b.Among lower upper) (hx : Within lower[b.unknown] upper[b.unknown] x) {m : K}
    (h : b.crossedBy (b.distance x) (finite m) = false) : b.Admits (x + finite m) := by
  obtain ⟨a, v, c, rfl, hv, hdistance, hpos, hle, hadmits⟩ | ⟨_, hadmits⟩ := hb.distance_cases hx
  · rw [hdistance] at h
    unfold Bound.Admits at hadmits ⊢
    unfold Bound.crossedBy at h
    cases hside : b.side with
    | upper =>
      rw [hside, hv] at hadmits
      rw [hside] at h
      have hav : a ≤ v := hadmits
      have hm : m ≤ (v - a) * c := not_lt.1 fun hlt => of_decide_eq_false h (finite_lt_finite.2 hlt)
      rw [hv]
      change a + m ≤ v
      nlinarith
    | lower =>
      rw [hside, hv] at hadmits
      rw [hside] at h
      have hva : v ≤ a := hadmits
      have hm : (v - a) * c ≤ m := not_lt.1 fun hlt => of_decide_eq_false h (finite_lt_finite.2 hlt)
      rw [hv]
      change v ≤ a + m
      nlinarith
  · exact (hadmits m).2

/-- A move that passes a bound can be shortened to a part that does not, and to a move that fits. -/
theorem Bound.Among.part_of_crossed {lower upper : Vector (Exact K) n} {b : Bound (Exact K) n}
    (hb : b.Among lower upper) (hx : Within lower[b.unknown] upper[b.unknown] x) {m : K}
    (h : b.crossedBy (b.distance x) (finite m) = true) :
    (∃ q, b.distance x / finite m = finite q ∧ 0 ≤ q ∧ b.Admits (x + finite (m * q))) ∧
      Fits lower[b.unknown] upper[b.unknown] x (b.distance x) := by
  obtain ⟨a, v, c, rfl, hv, hdistance, hpos, hle, hadmits⟩ | ⟨_, hadmits⟩ := hb.distance_cases hx
  · have hfits : Fits lower[b.unknown] upper[b.unknown] (finite a) (finite ((v - a) * c)) ∧
        ∃ q, finite ((v - a) * c) / finite m = finite q ∧ 0 ≤ q ∧
          b.Admits (finite a + finite (m * q)) := by
      have hvalue := hb.value
      unfold Bound.Admits at hadmits ⊢
      unfold Bound.crossedBy at h
      rw [hdistance] at h
      cases hside : b.side with
      | upper =>
        rw [hside, hv] at hadmits hvalue
        rw [hside] at h
        have hup : finite v = upper[b.unknown] := hvalue
        have hav : a ≤ v := hadmits
        have hm : (v - a) * c < m := finite_lt_finite.1 (of_decide_eq_true h)
        have hroom : 0 ≤ (v - a) * c := mul_nonneg (by linarith) hpos.le
        have hstop : finite (a + (v - a) * c) ≤ finite v := show a + (v - a) * c ≤ v by nlinarith
        refine ⟨⟨rfl, exact_le_trans hx.1 (show a ≤ a + (v - a) * c by linarith), ?_⟩,
          (v - a) * c / m, finite_div _ (by linarith), div_nonneg hroom (by linarith), ?_⟩
        · rw [← hup]
          exact hstop
        · rw [mul_div_cancel₀ _ (by linarith), hv]
          exact hstop
      | lower =>
        rw [hside, hv] at hadmits hvalue
        rw [hside] at h
        have hdown : finite v = lower[b.unknown] := hvalue
        have hva : v ≤ a := hadmits
        have hm : m < (v - a) * c := finite_lt_finite.1 (of_decide_eq_true h)
        have hroom : (v - a) * c ≤ 0 := mul_nonpos_of_nonpos_of_nonneg (by linarith) hpos.le
        have hstop : finite v ≤ finite (a + (v - a) * c) := show v ≤ a + (v - a) * c by nlinarith
        refine ⟨⟨rfl, ?_, exact_le_trans (show a + (v - a) * c ≤ a by linarith) hx.2⟩,
          (v - a) * c / m, finite_div _ (by linarith),
          div_nonneg_of_nonpos hroom (by linarith), ?_⟩
        · rw [← hdown]
          exact hstop
        · rw [mul_div_cancel₀ _ (by linarith), hv]
          exact hstop
    rw [hdistance]
    exact ⟨hfits.2, hfits.1⟩
  · rw [(hadmits m).1] at h
    cases h

omit [IsStrictOrderedRing K] in
theorem Bound.Among.admits {lower upper : Vector (Exact K) n} {b : Bound (Exact K) n}
    (hb : b.Among lower upper) (hx : Within lower[b.unknown] upper[b.unknown] x) : b.Admits x := by
  have hvalue := hb.value
  unfold Bound.Admits
  cases hside : b.side with
  | upper =>
    rw [hside] at hvalue
    exact hvalue ▸ hx.2
  | lower =>
    rw [hside] at hvalue
    exact hvalue ▸ hx.1

/-- What a part of a move does not pass, a smaller part does not. -/
theorem Bound.Admits.part {b : Bound (Exact K) n} {m q : K} (hx : b.Admits x)
    (h : b.Admits (x + finite (m * q))) (h0 : 0 ≤ r) (hle : r ≤ q) :
    b.Admits (x + finite (m * r)) := by
  obtain rfl | hpos := eq_or_lt_of_le (h0.trans hle)
  · rwa [le_antisymm hle h0]
  · have hpart : m * r = m * q * (r / q) := by
      rw [mul_assoc, mul_div_cancel₀ _ hpos.ne']
    have hr0 : 0 ≤ r / q := div_nonneg h0 hpos.le
    have hr1 : r / q ≤ 1 := div_le_one_of_le₀ hle hpos.le
    rw [hpart]
    unfold Bound.Admits at *
    cases hside : b.side with
    | upper =>
      rw [hside] at hx h
      exact add_part_le hx h hr0 hr1
    | lower =>
      rw [hside] at hx h
      exact le_add_part hx h hr0 hr1

/-! ## Limiting a step -/

omit [Field K] [LinearOrder K] [IsStrictOrderedRing K] [SquareRoot K] in
theorem getElem_set_fin {β : Type} (v : Vector β n) (i j : Fin n) (y : β) :
    (v.set i y)[j] = if i = j then y else v[j] := by
  rw [getElem_position, Vector.getElem_set]
  simp only [Fin.ext_iff, getElem_position]

/-- The bound is one of the given ones, and the point lies between them. -/
structure Bound.Keeps (lower upper x : Vector (Exact K) n) (b : Bound (Exact K) n) : Prop where
  among : b.Among lower upper
  within : Within lower[b.unknown] upper[b.unknown] x[b.unknown]

/-- The point lies beyond the bound, and the way back to the bound fits. -/
structure Bound.Recalls (lower upper x : Vector (Exact K) n) (b : Bound (Exact K) n) : Prop where
  violated : b.violatedBy (b.distance x[b.unknown]) = true
  home : Fits lower[b.unknown] upper[b.unknown] x[b.unknown] (b.value - x[b.unknown])

omit [IsStrictOrderedRing K] in
theorem Limiter.meet_violated {x : Vector (Exact K) n} {b : Bound (Exact K) n}
    (hb : b.violatedBy (b.distance x[b.unknown]) = true) (l : Limiter (Exact K) n)
    (minRatio : Exact K) (k : Nat) :
    (l.meet x minRatio k b).2 = l.pin b.unknown (b.value - x[b.unknown]) := by
  unfold Limiter.meet
  dsimp only
  rw [if_pos hb]

/-- A step that is being limited from `x`: its pinned moves fit, and the others are to be shortened
by a part that is no greater than one. -/
structure Limiter.Sound (lower upper x : Vector (Exact K) n) (l : Limiter (Exact K) n) : Prop where
  ratio : ∃ q, l.ratio = finite q ∧ 0 ≤ q ∧ q ≤ 1
  step : ∀ i : Fin n, ∃ m, l.step[i] = finite m
  pins : ∀ (i : Fin n) (move : Exact K), l.pins[i] = some move →
    l.step[i] = finite 0 ∧ Fits lower[i] upper[i] x[i] move

/-- The longest move that the size and the interval of unknown `i` admit. -/
def Limiter.sizeCap {α : Type} [Scalar α] {n : Nat} (rangeLimits x nominal : Vector α n)
    (factor : α) (i : Fin n) : α :=
  let size := larger (abs nominal[i]) (abs x[i])
  smaller rangeLimits[i] (if size > 0 then size * factor else infinity)

/-- The unknown of the bound is pinned, or its shortened move leads to the right side of the
bound. -/
def Limiter.Heeds (x : Vector (Exact K) n) (l : Limiter (Exact K) n) (b : Bound (Exact K) n) :
    Prop :=
  l.pins[b.unknown] = none → ∀ m q : K, l.step[b.unknown] = finite m → 0 ≤ q →
    finite q ≤ l.ratio → b.Admits (x[b.unknown] + finite (m * q))

/-- The second limiter shortens and pins at least as much as the first one. -/
structure Limiter.Tighter (l l' : Limiter (Exact K) n) : Prop where
  ratio : l'.ratio ≤ l.ratio
  step : ∀ i : Fin n, l'.pins[i] = none → l.pins[i] = none ∧ l'.step[i] = l.step[i]

namespace Limiter
variable {lower upper x : Vector (Exact K) n} {l l' l'' : Limiter (Exact K) n}

omit [IsStrictOrderedRing K] in
theorem Tighter.refl (h : l.Sound lower upper x) : l.Tighter l := by
  obtain ⟨q, hq, _⟩ := h.ratio
  refine ⟨?_, fun _ hi => ⟨hi, rfl⟩⟩
  rw [hq]
  exact le_refl q

omit [IsStrictOrderedRing K] in
theorem Tighter.trans (h : l.Tighter l') (h' : l'.Tighter l'') : l.Tighter l'' where
  ratio := exact_le_trans h'.ratio h.ratio
  step i hi := by
    obtain ⟨hpin, hstep⟩ := h'.step i hi
    obtain ⟨hpin', hstep'⟩ := h.step i hpin
    exact ⟨hpin', hstep.trans hstep'⟩

omit [IsStrictOrderedRing K] in
theorem Heeds.tighter {b : Bound (Exact K) n} (hb : l.Heeds x b) (h : l.Tighter l') :
    l'.Heeds x b := by
  intro hpin m q hm hq hle
  obtain ⟨hpin', hstep⟩ := h.step b.unknown hpin
  exact hb hpin' m q (hstep.symm.trans hm) hq (exact_le_trans hle h.ratio)

omit [IsStrictOrderedRing K] in
theorem Sound.pin (h : l.Sound lower upper x) {i : Fin n} {move : Exact K}
    (hmove : Fits lower[i] upper[i] x[i] move) : (l.pin i move).Sound lower upper x where
  ratio := h.ratio
  step j := by
    change ∃ m, (l.step.set i 0)[j] = finite m
    rw [getElem_set_fin]
    split
    · exact ⟨0, zero_eq⟩
    · exact h.step j
  pins j m := by
    change (l.pins.set i (some move))[j] = some m → (l.step.set i 0)[j] = finite 0 ∧ _
    rw [getElem_set_fin, getElem_set_fin]
    split
    · next hij =>
      subst hij
      intro hm
      cases hm
      exact ⟨zero_eq, hmove⟩
    · exact h.pins j m

omit [IsStrictOrderedRing K] in
theorem tighter_pin (h : l.Sound lower upper x) (i : Fin n) (move : Exact K) :
    l.Tighter (l.pin i move) where
  ratio := (Tighter.refl h).ratio
  step j := by
    change (l.pins.set i (some move))[j] = none → _ ∧ (l.step.set i 0)[j] = _
    rw [getElem_set_fin, getElem_set_fin]
    split
    · intro hj
      cases hj
    · exact fun hj => ⟨hj, rfl⟩

omit [IsStrictOrderedRing K] in
theorem heeds_pin (b : Bound (Exact K) n) (move : Exact K) : (l.pin b.unknown move).Heeds x b := by
  intro hpin
  change (l.pins.set b.unknown (some move))[b.unknown] = none at hpin
  rw [getElem_set_fin, if_pos rfl] at hpin
  cases hpin

/-- A bound that acts on a step keeps it sound and is heeded after that. -/
theorem Sound.meet (h : l.Sound lower upper x) {b : Bound (Exact K) n} (hb : b.Among lower upper)
    (hx : Within lower[b.unknown] upper[b.unknown] x[b.unknown]) (minRatio : Exact K) (k : Nat) :
    (l.meet x minRatio k b).2.Sound lower upper x ∧ l.Tighter (l.meet x minRatio k b).2 ∧
      (l.meet x minRatio k b).2.Heeds x b := by
  obtain ⟨m, hm⟩ := h.step b.unknown
  unfold Limiter.meet
  dsimp only
  rw [hb.not_violated hx, if_neg Bool.false_ne_true, hm]
  have hadmits := hb.admits hx
  obtain ⟨ratio, hratio, _, hratio1⟩ := h.ratio
  split
  · next hfree =>
    refine ⟨h, Tighter.refl h, fun _ m' q hm' hq hle => ?_⟩
    obtain rfl : m = m' := Exact.finite.inj (hm.symm.trans hm')
    have hq1 : q ≤ 1 := le_trans (finite_le_finite.1 (hratio ▸ hle)) hratio1
    refine hadmits.part (q := 1) ?_ hq hq1
    rw [mul_one]
    obtain hzero | hfree := hfree
    · rw [zero_eq] at hzero
      obtain ⟨hle, hge⟩ := beq_iff.1 hzero
      obtain rfl : m = 0 := le_antisymm hle hge
      rw [exact_add_zero]
      exact hadmits
    · exact hb.admits_of_not_crossed hx (by simpa using hfree)
  · next hcrossed =>
    obtain ⟨_, hcrossed⟩ := not_or.1 hcrossed
    obtain ⟨⟨part, hpart, hpart0, hstop⟩, hfits⟩ := hb.part_of_crossed hx (by simpa using hcrossed)
    rw [hpart]
    have heeds : ∀ l' : Limiter (Exact K) n, l'.step = l.step → l'.ratio ≤ finite part →
        l'.Heeds x b := by
      intro l' hstep hle _ m' q hm' hq hq'
      rw [hstep] at hm'
      obtain rfl : m = m' := Exact.finite.inj (hm.symm.trans hm')
      exact hadmits.part hstop hq (finite_le_finite.1 (exact_le_trans hq' hle))
    split
    · exact ⟨h.pin hfits, tighter_pin h _ _, heeds_pin b _⟩
    · split
      · next hlt =>
        rw [hratio] at hlt
        have hlt' : part < ratio := finite_lt_finite.1 hlt
        refine ⟨⟨⟨part, rfl, hpart0, hlt'.le.trans hratio1⟩, h.step, h.pins⟩,
          ⟨?_, fun _ hi => ⟨hi, rfl⟩⟩, heeds _ rfl (le_refl part)⟩
        rw [hratio]
        exact hlt'.le
      · next hle =>
        refine ⟨h, Tighter.refl h, heeds l rfl ?_⟩
        rw [hratio] at hle ⊢
        exact not_lt.1 fun hlt => hle (finite_lt_finite.2 hlt)

/-- All bounds are heeded after each of them has acted. -/
theorem Sound.meetAll {bounds : List (Bound (Exact K) n)}
    (hbounds : ∀ b ∈ bounds, b.Keeps lower upper x ∨ b.Recalls lower upper x)
    (minRatio : Exact K) (k : Nat) (h : l.Sound lower upper x) :
    (meetAll x minRatio k bounds l).2.Sound lower upper x ∧
      l.Tighter (meetAll x minRatio k bounds l).2 ∧
      ∀ b ∈ bounds, (meetAll x minRatio k bounds l).2.Heeds x b := by
  induction bounds generalizing k l with
  | nil => exact ⟨h, Tighter.refl h, nofun⟩
  | cons b bounds ih =>
    obtain ⟨hb, hbounds⟩ := List.forall_mem_cons.1 hbounds
    have hmeet : (l.meet x minRatio k b).2.Sound lower upper x ∧
        l.Tighter (l.meet x minRatio k b).2 ∧ (l.meet x minRatio k b).2.Heeds x b := by
      obtain hb | hb := hb
      · exact h.meet hb.among hb.within minRatio k
      · rw [meet_violated hb.violated]
        exact ⟨h.pin hb.home, tighter_pin h _ _, heeds_pin b _⟩
    obtain ⟨hmet, htight, hheeds⟩ := hmeet
    obtain ⟨hall, htight', hheeds'⟩ := ih hbounds (k + 1) hmet
    refine ⟨hall, htight.trans htight', List.forall_mem_cons.2 ⟨?_, hheeds'⟩⟩
    exact hheeds.tighter htight'

/-- What the size and the interval of an unknown admit is positive. -/
theorem sizeCap_pos {rangeLimits nominal : Vector (Exact K) n} {factor : Exact K}
    (hfactor : 0 < factor) {i : Fin n} (hrange : 0 < rangeLimits[i]) :
    0 < sizeCap rangeLimits x nominal factor i := by
  refine smaller_pos hrange ?_
  split
  · next hpos => exact exact_mul_pos hpos hfactor
  · exact ⟨trivial, id⟩

/-- How far an unknown is to move, pinned or not. -/
theorem Sound.lengthAt (h : l.Sound lower upper x) {i : Fin n} {length : Exact K}
    (hlength : l.lengthAt? i = some length) :
    (∃ m, l.step[i] = finite m ∧ m ≠ 0 ∧ l.pins[i] = none ∧ length = finite |m|) ∨
      ∃ m, l.pins[i] = some (finite m) ∧ length = finite |m| := by
  obtain ⟨m, hm⟩ := h.step i
  unfold lengthAt? at hlength
  rw [hm, abs_finite, zero_eq] at hlength
  dsimp only at hlength
  split at hlength
  · next hpos =>
    cases hlength
    have hpos : 0 < |m| := finite_lt_finite.1 hpos
    have hm0 : m ≠ 0 := fun h0 => by
      rw [h0, abs_zero] at hpos
      exact lt_irrefl _ hpos
    refine .inl ⟨m, hm, hm0, ?_, rfl⟩
    cases hpin : l.pins[i] with
    | none => rfl
    | some move => exact absurd (Exact.finite.inj (hm.symm.trans (h.pins i move hpin).1)) hm0
  · split at hlength
    · next move hpin =>
      split at hlength
      · cases hlength
      · cases hlength
        obtain ⟨d, rfl⟩ := isFinite_iff.1 (h.pins i move hpin).2.proper
        exact .inr ⟨d, hpin, rfl⟩
    · cases hlength

/-- A limit on the size of a move keeps the others sound. -/
theorem Sound.cap (h : l.Sound lower upper x) (hx : ∀ i : Fin n, Within lower[i] upper[i] x[i])
    {rangeLimits nominal : Vector (Exact K) n} {factor : Exact K} (hfactor : 0 < factor)
    {i : Fin n} (hrange : 0 < rangeLimits[i]) :
    (l.cap rangeLimits x nominal factor i).Sound lower upper x ∧
      l.Tighter (l.cap rangeLimits x nominal factor i) := by
  unfold Limiter.cap
  cases hlength : l.lengthAt? i with
  | none => exact ⟨h, Tighter.refl h⟩
  | some length =>
    dsimp only
    have hlimit : 0 < sizeCap rangeLimits x nominal factor i := sizeCap_pos hfactor hrange
    unfold sizeCap at hlimit
    generalize smaller rangeLimits[i] _ = limit at hlimit ⊢
    split
    · exact ⟨h, Tighter.refl h⟩
    · next hlong =>
      obtain ⟨m, hm, hm0, hpin, rfl⟩ | ⟨m, hpin, rfl⟩ := h.lengthAt hlength
      · obtain ⟨c, hc, hpos, hle⟩ := finite_of_not_lt hlimit hlong
        have hlen : 0 < |m| := abs_pos.2 hm0
        rw [hpin, hc, finite_div _ hlen.ne']
        dsimp only
        obtain ⟨ratio, hratio, _, hratio1⟩ := h.ratio
        split
        · next hlt =>
          rw [hratio] at hlt
          have hlt' : c / |m| < ratio := finite_lt_finite.1 hlt
          refine ⟨⟨⟨_, rfl, (div_pos hpos hlen).le, hlt'.le.trans hratio1⟩, h.step, h.pins⟩,
            ⟨?_, fun _ hi => ⟨hi, rfl⟩⟩⟩
          rw [hratio]
          exact hlt'.le
        · exact ⟨h, Tighter.refl h⟩
      · obtain ⟨c, hc, hpos, hle⟩ := finite_of_not_lt hlimit hlong
        obtain ⟨r, hr, hr0, hr1⟩ := copySign_eq_part hpos.le (abs_pos.1 (hpos.trans_le hle)) hle
        have hfits := (h.pins i _ hpin).2.part (hx i) hr0 hr1
        rw [hpin, hc]
        dsimp only
        rw [hr]
        refine ⟨⟨h.ratio, h.step, fun j move => ?_⟩, ⟨(Tighter.refl h).ratio, fun j => ?_⟩⟩
        · change (l.pins.set i (some (finite (m * r))))[j] = some move → _
          rw [getElem_set_fin]
          split
          · next hij =>
            subst hij
            intro hmove
            cases hmove
            exact ⟨(h.pins i _ hpin).1, hfits⟩
          · exact h.pins j move
        · change (l.pins.set i (some (finite (m * r))))[j] = none → _
          rw [getElem_set_fin]
          split
          · intro hj
            cases hj
          · exact fun hj => ⟨hj, rfl⟩

theorem Sound.capAll (h : l.Sound lower upper x)
    (hx : ∀ i : Fin n, Within lower[i] upper[i] x[i])
    {rangeLimits nominal : Vector (Exact K) n} {factor : Exact K} (hfactor : 0 < factor)
    (hrange : ∀ i : Fin n, 0 < rangeLimits[i]) (is : List (Fin n)) :
    (is.foldl (Limiter.cap rangeLimits x nominal factor) l).Sound lower upper x ∧
      l.Tighter (is.foldl (Limiter.cap rangeLimits x nominal factor) l) := by
  induction is generalizing l with
  | nil => exact ⟨h, Tighter.refl h⟩
  | cons i is ih =>
    have hcapped : (l.cap rangeLimits x nominal factor i).Sound lower upper x ∧
        l.Tighter (l.cap rangeLimits x nominal factor i) := h.cap hx hfactor (hrange i)
    obtain ⟨hcap, htight⟩ := hcapped
    obtain ⟨hall, htight'⟩ := ih hcap
    exact ⟨hall, htight.trans htight'⟩

end Limiter

variable {lower upper x nominal step : Vector (Exact K) n}

omit [IsStrictOrderedRing K] in
theorem among_ofBounds (lower upper : Vector (Exact K) n) (factor : Option (Exact K)) :
    ∀ b ∈ (Box.ofBounds lower upper factor).bounds, b.Among lower upper := by
  intro b hb
  obtain ⟨i, _, hi⟩ := List.mem_flatMap.1 hb
  unfold Box.boundsOf at hi
  obtain hi | hi := List.mem_append.1 hi
  · split at hi
    · next hfinite =>
      obtain rfl := List.mem_singleton.1 hi
      exact ⟨hfinite, rfl⟩
    · cases hi
  · split at hi
    · next hfinite =>
      obtain rfl := List.mem_singleton.1 hi
      exact ⟨hfinite, rfl⟩
    · cases hi

omit [IsStrictOrderedRing K] in
theorem upper_mem_ofBounds {i : Fin n} (factor : Option (Exact K))
    (h : isFinite upper[i] = true) :
    { unknown := i, side := .upper, value := upper[i] } ∈
      (Box.ofBounds lower upper factor).bounds :=
  List.mem_flatMap.2 ⟨i, List.mem_finRange i, List.mem_append_left _ (by
    rw [if_pos h]
    exact List.mem_singleton.2 rfl)⟩

omit [IsStrictOrderedRing K] in
theorem lower_mem_ofBounds {i : Fin n} (factor : Option (Exact K))
    (h : isFinite lower[i] = true) :
    { unknown := i, side := .lower, value := lower[i] } ∈
      (Box.ofBounds lower upper factor).bounds :=
  List.mem_flatMap.2 ⟨i, List.mem_finRange i, List.mem_append_right _ (by
    rw [if_pos h]
    exact List.mem_singleton.2 rfl)⟩

theorem rangeLimit_pos (lower upper : Exact K) {factor : Option (Exact K)}
    (hfactor : ∀ c, factor = some c → 0 < c) : 0 < Box.rangeLimit lower upper factor := by
  unfold Box.rangeLimit
  cases factor with
  | none => exact ⟨trivial, id⟩
  | some c =>
    dsimp only
    split
    · next h => exact exact_mul_pos h.2.2.1 (hfactor c rfl)
    · exact ⟨trivial, id⟩

theorem rangeLimits_pos (lower upper : Vector (Exact K) n) {factor : Option (Exact K)}
    (hfactor : ∀ c, factor = some c → 0 < c) (i : Fin n) :
    0 < (Box.ofBounds lower upper factor).rangeLimits[i] := by
  have hentry : (Box.ofBounds lower upper factor).rangeLimits[i] =
      Box.rangeLimit lower[i] upper[i] factor := Vector.getElem_zipWith i.isLt
  rw [hentry]
  exact rangeLimit_pos _ _ hfactor

omit [IsStrictOrderedRing K] in
/-- A step that heeds all bounds fits where its pinned moves do. -/
theorem Limiter.Sound.finalStep {l : Limiter (Exact K) n} {low high : Vector (Exact K) n}
    (h : l.Sound low high x) {i : Fin n} (hlow : low[i] = lower[i]) (hhigh : high[i] = upper[i])
    (hx : Within lower[i] upper[i] x[i]) {factor : Option (Exact K)}
    (hheeds : ∀ b ∈ (Box.ofBounds lower upper factor).bounds, l.Heeds x b) :
    Fits lower[i] upper[i] x[i] l.finalStep[i] := by
  have hentry : l.finalStep[i] = l.pins[i].getD (l.step[i] * l.ratio) :=
    Vector.getElem_zipWith i.isLt
  rw [hentry]
  cases hpin : l.pins[i] with
  | some move =>
    have hfits := (h.pins i move hpin).2
    rwa [hlow, hhigh] at hfits
  | none =>
    obtain ⟨m, hm⟩ := h.step i
    obtain ⟨q, hq, hq0, _⟩ := h.ratio
    have hle : finite q ≤ l.ratio := by
      rw [hq]
      exact le_refl q
    rw [hm, hq]
    refine ⟨rfl, ?_, ?_⟩
    · cases hfinite : isFinite lower[i] with
      | false => exact le_add_of_not_finite hx.1 hfinite _
      | true =>
        exact hheeds _ (lower_mem_ofBounds factor hfinite) hpin m q hm hq0 hle
    · cases hfinite : isFinite upper[i] with
      | false => exact add_le_of_not_finite hx.2 hfinite _
      | true =>
        exact hheeds _ (upper_mem_ofBounds factor hfinite) hpin m q hm hq0 hle

theorem Limiter.sound_start (hstep : ∀ i : Fin n, isFinite step[i] = true) :
    (Limiter.start step).Sound lower upper x where
  ratio := ⟨1, one_eq, zero_le_one, le_refl 1⟩
  step i := isFinite_iff.1 (hstep i)
  pins i move h := by
    change (Vector.replicate n none)[i] = some move at h
    rw [getElem_position, Vector.getElem_replicate] at h
    cases h

/-- A finite step that is limited from a point inside the bounds fits. -/
theorem fits_limitStep (hx : ∀ i : Fin n, Within lower[i] upper[i] x[i])
    (hstep : ∀ i : Fin n, isFinite step[i] = true) (nominal : Vector (Exact K) n)
    (minRatio : Exact K) {factor : Option (Exact K)} (hfactor : ∀ c, factor = some c → 0 < c)
    (i : Fin n) :
    Fits lower[i] upper[i] x[i]
      ((Box.ofBounds lower upper factor).limitStep x nominal step minRatio factor).2.step[i] := by
  obtain ⟨hmet, _, hheeds⟩ := (Limiter.sound_start hstep).meetAll
    (fun b hb => .inl ⟨among_ofBounds lower upper factor b hb, hx b.unknown⟩) minRatio 0
  cases factor with
  | none => exact hmet.finalStep rfl rfl (hx i) hheeds
  | some c =>
    obtain ⟨hcap, htight⟩ :
        _ ∧ Limiter.Tighter _ ((List.finRange n).foldl (Limiter.cap _ x nominal c) _) :=
      hmet.capAll hx (hfactor c rfl) (rangeLimits_pos lower upper hfactor) (List.finRange n)
    exact hcap.finalStep rfl rfl (hx i) fun b hb => (hheeds b hb).tighter htight

end

end AlgebraicLoop
