import AlgebraicLoop.Proofs.InsideBounds

/-!
# Limited steps from any point

A step that is limited from a point inside the bounds stays inside them on its whole length. From a
point beyond a bound it goes back towards that bound, and reaches it unless the size of its unknown
keeps it short.

* `Stays`: moves all parts of which lead to numbers between two limits;
* `nearEnd`, `farEnd`: the bounds, moved so that the point lies between them;
* `Limiter.Pinned`: an unknown that no later bound moves again;
* `limitStep_stays`: what becomes of each unknown.
-/

namespace AlgebraicLoop
set_option autoImplicit false

open Exact

section
variable {α : Type} [Scalar α] {n : Nat}

/-- The bounds of a step have acted, and then the sizes of its unknowns. -/
def Box.limiter (box : Box α n) (x nominal step : Vector α n) (minRatio : α) (factor : Option α) :
    Limiter α n :=
  let met := ((Limiter.start step).meetAll x minRatio 0 box.bounds).2
  match factor with
  | some factor => (List.finRange n).foldl (Limiter.cap box.rangeLimits x nominal factor) met
  | none => met

theorem Box.limitStep_step (box : Box α n) (x nominal step : Vector α n) (minRatio : α)
    (factor : Option α) :
    (box.limitStep x nominal step minRatio factor).2.step =
      (box.limiter x nominal step minRatio factor).finalStep := by
  cases factor <;> rfl

end

section
variable {K : Type} [Field K] [LinearOrder K] [IsStrictOrderedRing K] [SquareRoot K] {n : Nat}

/-- Every part of the move leads from `x` to a number between the limits. -/
def Stays (low high x move : Exact K) : Prop :=
  ∀ r : K, 0 ≤ r → r ≤ 1 → Within low high (x + finite r * move)

theorem Fits.stays {low high x move : Exact K} (hx : Within low high x)
    (h : Fits low high x move) : Stays low high x move := by
  intro r h0 h1
  obtain ⟨d, rfl⟩ := isFinite_iff.1 h.proper
  rw [finite_mul, mul_comm]
  exact (h.part hx h0 h1).within

/-- The move from a number to another one, or a part of it, does not leave what is between them. -/
theorem fits_towards {a v low high r : K} (h : (low = v ∧ high = a) ∨ (low = a ∧ high = v))
    (hle : low ≤ high) (h0 : 0 ≤ r) (h1 : r ≤ 1) :
    Fits (finite low) (finite high) (finite a) (finite ((v - a) * r)) := by
  refine ⟨rfl, ?_, ?_⟩
  · change low ≤ a + (v - a) * r
    obtain ⟨rfl, rfl⟩ | ⟨rfl, rfl⟩ := h <;> nlinarith
  · change a + (v - a) * r ≤ high
    obtain ⟨rfl, rfl⟩ | ⟨rfl, rfl⟩ := h <;> nlinarith

/-! ## Points beyond a bound -/

/-- The lower bounds, or the point where it is below them. -/
def nearEnd (lower x : Vector (Exact K) n) : Vector (Exact K) n :=
  lower.zipWith (fun low a => if a < low then a else low) x

/-- The upper bounds, or the point where it is above them. -/
def farEnd (upper x : Vector (Exact K) n) : Vector (Exact K) n :=
  upper.zipWith (fun high a => if high < a then a else high) x

omit [IsStrictOrderedRing K] in
theorem getElem_nearEnd (lower x : Vector (Exact K) n) (i : Fin n) :
    (nearEnd lower x)[i] = if x[i] < lower[i] then x[i] else lower[i] :=
  Vector.getElem_zipWith i.isLt

omit [IsStrictOrderedRing K] in
theorem getElem_farEnd (upper x : Vector (Exact K) n) (i : Fin n) :
    (farEnd upper x)[i] = if upper[i] < x[i] then x[i] else upper[i] :=
  Vector.getElem_zipWith i.isLt

/-- A bound is violated by the points on its wrong side. -/
theorem Bound.violatedBy_distance {b : Bound (Exact K) n} {a v : K} (hv : b.value = finite v) :
    b.violatedBy (b.distance (finite a)) = true ↔ ¬ b.Admits (finite a) := by
  obtain ⟨c, hc, hpos, _⟩ := shortfall_eq (K := K)
  unfold Bound.violatedBy Bound.distance Bound.Admits
  rw [hv, hc, zero_eq]
  cases b.side with
  | upper =>
    refine decide_eq_true_iff.trans ?_
    rw [finite_sub, finite_mul, finite_lt_finite]
    exact ⟨fun h => not_le.2 (by nlinarith), fun h => by nlinarith [not_le.1 h]⟩
  | lower =>
    refine decide_eq_true_iff.trans ?_
    rw [finite_sub, finite_mul, gt_iff_lt, finite_lt_finite, mul_pos_iff_of_pos_right hpos, sub_pos]
    exact not_le.symm

section
variable {lower upper x : Vector (Exact K) n}

theorem ends_outside (hordered : ∀ i : Fin n, lower[i] ≤ upper[i]) (i : Fin n) :
    (nearEnd lower x)[i] ≤ lower[i] ∧ upper[i] ≤ (farEnd upper x)[i] := by
  obtain ⟨hlow, hhigh⟩ := ne_nan_of_le (hordered i)
  constructor
  · rw [getElem_nearEnd]
    split
    · next h => exact h.1
    · exact exact_le_self hlow
  · rw [getElem_farEnd]
    split
    · next h => exact h.1
    · exact exact_le_self hhigh

/-- The point lies between the moved bounds. -/
theorem within_ends (hordered : ∀ i : Fin n, lower[i] ≤ upper[i])
    (hx : ∀ i : Fin n, isFinite x[i] = true) (i : Fin n) :
    Within (nearEnd lower x)[i] (farEnd upper x)[i] x[i] := by
  obtain ⟨hlow, hhigh⟩ := ne_nan_of_le (hordered i)
  have hne : x[i] ≠ nan := by
    obtain ⟨a, ha⟩ := isFinite_iff.1 (hx i)
    rw [ha]
    exact finite_ne_nan a
  constructor
  · rw [getElem_nearEnd]
    split
    · exact exact_le_self hne
    · next h => exact exact_le_of_not_lt hne hlow h
  · rw [getElem_farEnd]
    split
    · exact exact_le_self hne
    · next h => exact exact_le_of_not_lt hhigh hne h

omit [IsStrictOrderedRing K] in
theorem ends_of_within {i : Fin n} (hi : Within lower[i] upper[i] x[i]) :
    (nearEnd lower x)[i] = lower[i] ∧ (farEnd upper x)[i] = upper[i] := by
  rw [getElem_nearEnd, getElem_farEnd]
  exact ⟨if_neg fun h => h.2 hi.1, if_neg fun h => h.2 hi.2⟩

theorem Bound.Among.between (hordered : ∀ i : Fin n, lower[i] ≤ upper[i]) {b : Bound (Exact K) n}
    (hb : b.Among lower upper) : Within lower[b.unknown] upper[b.unknown] b.value := by
  obtain ⟨hlow, hhigh⟩ := ne_nan_of_le (hordered b.unknown)
  have hvalue := hb.value
  cases hside : b.side with
  | upper =>
    rw [hside] at hvalue
    rw [hvalue]
    exact ⟨hordered _, exact_le_self hhigh⟩
  | lower =>
    rw [hside] at hvalue
    rw [hvalue]
    exact ⟨exact_le_self hlow, hordered _⟩

omit [IsStrictOrderedRing K] in
/-- A bound that the point respects is where it was when the bounds are moved to the point. -/
theorem Bound.Among.moved {b : Bound (Exact K) n} (hb : b.Among lower upper)
    (hadmits : b.Admits x[b.unknown]) : b.Among (nearEnd lower x) (farEnd upper x) := by
  refine ⟨hb.proper, ?_⟩
  unfold Bound.Admits at hadmits
  have hvalue := hb.value
  cases hside : b.side with
  | upper =>
    rw [hside] at hadmits hvalue
    dsimp only at hadmits hvalue ⊢
    rw [hvalue] at hadmits
    rw [hvalue, getElem_farEnd, if_neg fun h => h.2 hadmits]
  | lower =>
    rw [hside] at hadmits hvalue
    dsimp only at hadmits hvalue ⊢
    rw [hvalue] at hadmits
    rw [hvalue, getElem_nearEnd, if_neg fun h => h.2 hadmits]

/-- Either a bound stands where it was when the bounds are moved, or the way back to it fits. -/
theorem keeps_or_recalls (hordered : ∀ i : Fin n, lower[i] ≤ upper[i])
    (hx : ∀ i : Fin n, isFinite x[i] = true) {b : Bound (Exact K) n} (hb : b.Among lower upper) :
    b.Keeps (nearEnd lower x) (farEnd upper x) x ∨
      b.Recalls (nearEnd lower x) (farEnd upper x) x := by
  obtain ⟨v, hv⟩ := isFinite_iff.1 hb.proper
  obtain ⟨a, ha⟩ := isFinite_iff.1 (hx b.unknown)
  obtain ⟨hnear, hfar⟩ := ends_outside (x := x) hordered b.unknown
  have hbetween := hb.between hordered
  by_cases hadmits : b.Admits x[b.unknown]
  · exact .inl ⟨hb.moved hadmits, within_ends hordered hx b.unknown⟩
  · rw [ha] at hadmits
    refine .inr ⟨?_, ?_⟩
    · rw [ha]
      exact (Bound.violatedBy_distance hv).2 hadmits
    · have hback : x[b.unknown] + (b.value - x[b.unknown]) = b.value := by
        rw [ha, hv, finite_sub, finite_add, add_sub_cancel]
      refine ⟨?_, ?_⟩
      · rw [ha, hv]
        rfl
      · rw [hback]
        exact ⟨exact_le_trans hnear hbetween.1, exact_le_trans hbetween.2 hfar⟩

end

/-! ## Pinned unknowns -/

/-- Unknown `i` is pinned to the move. -/
structure Limiter.Pinned (l : Limiter (Exact K) n) (i : Fin n) (move : K) : Prop where
  pin : l.pins[i] = some (finite move)
  still : l.step[i] = finite 0

namespace Limiter
variable {x nominal : Vector (Exact K) n} {l : Limiter (Exact K) n} {i : Fin n} {d : K}

omit [IsStrictOrderedRing K] in
theorem pinned_pin (l : Limiter (Exact K) n) (i : Fin n) (d : K) :
    (l.pin i (finite d)).Pinned i d where
  pin := by
    change (l.pins.set i (some (finite d)))[i] = _
    rw [getElem_set_fin, if_pos rfl]
  still := by
    change (l.step.set i 0)[i] = _
    rw [getElem_set_fin, if_pos rfl, zero_eq]

omit [IsStrictOrderedRing K] in
theorem Pinned.pin_other (h : l.Pinned i d) {j : Fin n} (hj : j ≠ i) (move : Exact K) :
    (l.pin j move).Pinned i d where
  pin := by
    change (l.pins.set j (some move))[i] = _
    rw [getElem_set_fin, if_neg hj, h.pin]
  still := by
    change (l.step.set j 0)[i] = _
    rw [getElem_set_fin, if_neg hj, h.still]

omit [IsStrictOrderedRing K] in
/-- A pinned unknown is moved again by no bound but a violated one. -/
theorem Pinned.meet (h : l.Pinned i d) {b : Bound (Exact K) n}
    (hb : b.unknown = i → b.violatedBy (b.distance x[b.unknown]) = true →
      b.value - x[b.unknown] = finite d) (minRatio : Exact K) (k : Nat) :
    (l.meet x minRatio k b).2.Pinned i d := by
  unfold Limiter.meet
  dsimp only
  split
  · next hviolated =>
    by_cases hi : b.unknown = i
    · rw [hb hi hviolated, ← hi]
      exact pinned_pin l b.unknown d
    · exact h.pin_other hi _
  · split
    · exact h
    · next hmoves =>
      have hi : b.unknown ≠ i := by
        intro hi
        refine hmoves (.inl ?_)
        rw [hi, h.still, zero_eq]
        exact beq_iff.2 ⟨le_refl (0 : K), le_refl (0 : K)⟩
      split
      · exact h.pin_other hi _
      · split
        · exact ⟨h.pin, h.still⟩
        · exact h

omit [IsStrictOrderedRing K] in
/-- An unknown with a violated bound is pinned when all bounds have acted. -/
theorem pinned_meetAll {bounds : List (Bound (Exact K) n)}
    (hbounds : ∀ b ∈ bounds, b.unknown = i → b.violatedBy (b.distance x[b.unknown]) = true →
      b.value - x[b.unknown] = finite d) (minRatio : Exact K) (k : Nat)
    (h : l.Pinned i d ∨
      ∃ b ∈ bounds, b.unknown = i ∧ b.violatedBy (b.distance x[b.unknown]) = true) :
    (meetAll x minRatio k bounds l).2.Pinned i d := by
  induction bounds generalizing k l with
  | nil =>
    obtain h | ⟨b, hb, _⟩ := h
    · exact h
    · cases hb
  | cons b bounds ih =>
    obtain ⟨hb, hbounds⟩ := List.forall_mem_cons.1 hbounds
    have hmet : (l.meet x minRatio k b).2.Pinned i d ∨
        ∃ b ∈ bounds, b.unknown = i ∧ b.violatedBy (b.distance x[b.unknown]) = true := by
      obtain h | ⟨b', hmem, hi, hviolated⟩ := h
      · exact .inl (h.meet hb minRatio k)
      · obtain rfl | hmem := List.mem_cons.1 hmem
        · rw [meet_violated hviolated, hb hi hviolated, ← hi]
          exact .inl (pinned_pin l b'.unknown d)
        · exact .inr ⟨b', hmem, hi, hviolated⟩
    exact ih hbounds (k + 1) hmet

/-- A pinned unknown moves as far as it is pinned to, if it moves at all. -/
theorem Pinned.length (h : l.Pinned i d) {length : Exact K}
    (hlength : l.lengthAt? i = some length) : d ≠ 0 ∧ length = finite |d| := by
  unfold lengthAt? at hlength
  rw [h.still, h.pin, abs_finite, abs_zero, zero_eq,
    if_neg (fun h0 => lt_irrefl (0 : K) (finite_lt_finite.1 h0))] at hlength
  dsimp only at hlength
  split at hlength
  · cases hlength
  · next hd =>
    cases hlength
    refine ⟨?_, rfl⟩
    rintro rfl
    exact hd (beq_iff.2 ⟨le_refl (0 : K), le_refl (0 : K)⟩)

/-- The size of an unknown may shorten the move it is pinned to. -/
theorem Pinned.cap (h : l.Pinned i d) {rangeLimits : Vector (Exact K) n} {factor : Exact K}
    (hcap : ∀ j : Fin n, 0 < sizeCap rangeLimits x nominal factor j) (j : Fin n) :
    ∃ r, 0 ≤ r ∧ r ≤ 1 ∧ (l.cap rangeLimits x nominal factor j).Pinned i (d * r) ∧
      (finite |d| ≤ sizeCap rangeLimits x nominal factor i → r = 1) := by
  have hkeep : l.Pinned i (d * 1) := by rwa [mul_one]
  have hpos := hcap j
  have hsize : sizeCap rangeLimits x nominal factor j =
      smaller rangeLimits[j] (if larger (abs nominal[j]) (abs x[j]) > 0 then
        larger (abs nominal[j]) (abs x[j]) * factor else infinity) := rfl
  unfold Limiter.cap
  cases hlength : l.lengthAt? j with
  | none => exact ⟨1, zero_le_one, le_refl 1, hkeep, fun _ => rfl⟩
  | some length =>
    dsimp only
    rw [← hsize]
    split
    · exact ⟨1, zero_le_one, le_refl 1, hkeep, fun _ => rfl⟩
    · next hlong =>
      by_cases hj : j = i
      · subst hj
        rw [h.pin]
        dsimp only
        obtain ⟨hd0, rfl⟩ := h.length hlength
        obtain ⟨c, hc, hc0, hle⟩ := finite_of_not_lt hpos hlong
        have habs : 0 < |d| := abs_pos.2 hd0
        rw [hc, copySign_eq_mul hc0.le hd0]
        refine ⟨c / |d|, by positivity, div_le_one_of_le₀ hle habs.le, ⟨?_, h.still⟩, ?_⟩
        · change (l.pins.set j _)[j] = _
          rw [getElem_set_fin, if_pos rfl]
        · intro hshort
          rw [le_antisymm hle (finite_le_finite.1 hshort), div_self habs.ne']
      · refine ⟨1, zero_le_one, le_refl 1, ?_, fun _ => rfl⟩
        split
        · refine ⟨?_, hkeep.still⟩
          change (l.pins.set j _)[i] = _
          rw [getElem_set_fin, if_neg hj, hkeep.pin]
        · split
          · exact ⟨hkeep.pin, hkeep.still⟩
          · exact hkeep

theorem Pinned.capAll (h : l.Pinned i d) {rangeLimits : Vector (Exact K) n} {factor : Exact K}
    (hcap : ∀ j : Fin n, 0 < sizeCap rangeLimits x nominal factor j) (js : List (Fin n)) :
    ∃ r, 0 ≤ r ∧ r ≤ 1 ∧
      (js.foldl (Limiter.cap rangeLimits x nominal factor) l).Pinned i (d * r) ∧
      (finite |d| ≤ sizeCap rangeLimits x nominal factor i → r = 1) := by
  induction js generalizing l d with
  | nil => exact ⟨1, zero_le_one, le_refl 1, by rwa [mul_one], fun _ => rfl⟩
  | cons j js ih =>
    obtain ⟨r, hr0, hr1, hpinned, hshort⟩ := h.cap hcap j
    obtain ⟨q, hq0, hq1, hpinned', hshort'⟩ := ih hpinned
    refine ⟨r * q, mul_nonneg hr0 hq0, mul_le_one₀ hr1 hq0 hq1, ?_, fun hd => ?_⟩
    · rw [← mul_assoc]
      exact hpinned'
    · obtain rfl := hshort hd
      rw [mul_one] at hshort'
      rw [hshort' hd, one_mul]

end Limiter

/-! ## Every unknown -/

section
variable {lower upper x nominal step : Vector (Exact K) n}

omit [IsStrictOrderedRing K] in
/-- A point is beyond one bound of an unknown at most. -/
theorem Bound.Among.violated_unique (hordered : ∀ i : Fin n, lower[i] ≤ upper[i])
    {b b' : Bound (Exact K) n} (hb : b.Among lower upper) (hb' : b'.Among lower upper)
    (hi : b'.unknown = b.unknown) {a : K} (h : ¬ b.Admits (finite a))
    (h' : ¬ b'.Admits (finite a)) : b'.value = b.value := by
  have hvalue := hb.value
  have hvalue' := hb'.value
  rw [hi] at hvalue'
  unfold Bound.Admits at h h'
  have hle := hordered b.unknown
  obtain ⟨v, hv⟩ := isFinite_iff.1 hb.proper
  obtain ⟨v', hv'⟩ := isFinite_iff.1 hb'.proper
  cases hside : b.side <;> cases hside' : b'.side <;>
    rw [hside] at h hvalue <;> rw [hside'] at h' hvalue' <;> dsimp only at h h' hvalue hvalue'
  · rw [hvalue, hvalue']
  · rw [hv, finite_le_finite, not_le] at h
    rw [hv', finite_le_finite, not_le] at h'
    rw [← hvalue, ← hvalue', hv, hv', finite_le_finite] at hle
    exact absurd ((h'.trans h).trans_le hle) (lt_irrefl v')
  · rw [hv, finite_le_finite, not_le] at h
    rw [hv', finite_le_finite, not_le] at h'
    rw [← hvalue, ← hvalue', hv, hv', finite_le_finite] at hle
    exact absurd ((h.trans h').trans_le hle) (lt_irrefl v)
  · rw [hvalue, hvalue']

variable (hordered : ∀ i : Fin n, lower[i] ≤ upper[i]) (hx : ∀ i : Fin n, isFinite x[i] = true)
  (hstep : ∀ i : Fin n, isFinite step[i] = true) {boxFactor factor : Option (Exact K)}
  (hboxFactor : ∀ c, boxFactor = some c → 0 < c) (hfactor : ∀ c, factor = some c → 0 < c)
include hordered hx hstep hboxFactor hfactor

/-- The limited step heeds all bounds, and its pinned moves lead to what is between the bounds and
the point. -/
theorem limiter_sound (nominal : Vector (Exact K) n) (minRatio : Exact K) :
    ((Box.ofBounds lower upper boxFactor).limiter x nominal step minRatio factor).Sound
        (nearEnd lower x) (farEnd upper x) x ∧
      ∀ b ∈ (Box.ofBounds lower upper boxFactor).bounds,
        ((Box.ofBounds lower upper boxFactor).limiter x nominal step minRatio factor).Heeds x b := by
  obtain ⟨hmet, _, hheeds⟩ := (Limiter.sound_start hstep).meetAll
    (fun b hb => keeps_or_recalls hordered hx (among_ofBounds lower upper boxFactor b hb)) minRatio 0
  cases factor with
  | none => exact ⟨hmet, hheeds⟩
  | some c =>
    obtain ⟨hcap, htight⟩ :
        _ ∧ Limiter.Tighter _ ((List.finRange n).foldl (Limiter.cap _ x nominal c) _) :=
      hmet.capAll (within_ends hordered hx) (hfactor c rfl) (rangeLimits_pos lower upper hboxFactor)
        (List.finRange n)
    exact ⟨hcap, fun b hb => (hheeds b hb).tighter htight⟩

omit hx hstep in
/-- An unknown that is beyond a bound is pinned to the way back, or to a part of it. -/
theorem limiter_pinned (nominal step : Vector (Exact K) n) (minRatio : Exact K)
    {b : Bound (Exact K) n}
    (hb : b ∈ (Box.ofBounds lower upper boxFactor).bounds) {a v : K}
    (ha : x[b.unknown] = finite a) (hv : b.value = finite v) (h : ¬ b.Admits (finite a)) :
    ∃ r, 0 ≤ r ∧ r ≤ 1 ∧
      ((Box.ofBounds lower upper boxFactor).limiter x nominal step minRatio factor).Pinned b.unknown
        ((v - a) * r) ∧
      ((∀ c, factor = some c → finite |v - a| ≤ Limiter.sizeCap
        (Box.ofBounds lower upper boxFactor).rangeLimits x nominal c b.unknown) → r = 1) := by
  have hamong := among_ofBounds lower upper boxFactor
  have hviolated : b.violatedBy (b.distance x[b.unknown]) = true := by
    rw [ha]
    exact (Bound.violatedBy_distance hv).2 h
  have hmet : (Limiter.meetAll x minRatio 0 (Box.ofBounds lower upper boxFactor).bounds
      (Limiter.start step)).2.Pinned b.unknown (v - a) := by
    refine Limiter.pinned_meetAll (fun b' hb' hi hviolated' => ?_) minRatio 0
      (.inr ⟨b, hb, rfl, hviolated⟩)
    obtain ⟨v', hv'⟩ := isFinite_iff.1 (hamong b' hb').proper
    rw [hi, ha, Bound.violatedBy_distance hv'] at hviolated'
    rw [(hamong b hb).violated_unique hordered (hamong b' hb') hi h hviolated', hv, hi, ha, finite_sub]
  cases factor with
  | none => exact ⟨1, zero_le_one, le_refl 1, by rwa [mul_one], fun _ => rfl⟩
  | some c =>
    obtain ⟨r, h0, h1, hpinned, hshort⟩ := hmet.capAll (fun j => Limiter.sizeCap_pos (hfactor c rfl)
      (rangeLimits_pos lower upper hboxFactor j)) (List.finRange n)
    exact ⟨r, h0, h1, hpinned, fun hall => hshort (hall c rfl)⟩

omit [IsStrictOrderedRing K] hordered hx hstep hboxFactor hfactor in
theorem Limiter.Pinned.finalStep {l : Limiter (Exact K) n} {i : Fin n} {d : K}
    (h : l.Pinned i d) : l.finalStep[i] = finite d := by
  have hentry : l.finalStep[i] = l.pins[i].getD (l.step[i] * l.ratio) :=
    Vector.getElem_zipWith i.isLt
  rw [hentry, h.pin]
  rfl

omit hx hstep in
/-- From beyond a bound a limited step goes back, no farther than to the bound. -/
theorem limitStep_back (nominal step : Vector (Exact K) n) (minRatio : Exact K)
    {b : Bound (Exact K) n}
    (hb : b ∈ (Box.ofBounds lower upper boxFactor).bounds) {a v low high : K}
    (ha : x[b.unknown] = finite a) (hv : b.value = finite v) (h : ¬ b.Admits (finite a))
    (hends : (low = v ∧ high = a) ∨ (low = a ∧ high = v)) (hle : low ≤ high) :
    Stays (finite low) (finite high) x[b.unknown] ((Box.ofBounds lower upper boxFactor).limitStep x
        nominal step minRatio factor).2.step[b.unknown] ∧
      ((∀ c, factor = some c → abs (b.value - x[b.unknown]) ≤ Limiter.sizeCap
          (Box.ofBounds lower upper boxFactor).rangeLimits x nominal c b.unknown) →
        x[b.unknown] + ((Box.ofBounds lower upper boxFactor).limitStep x
          nominal step minRatio factor).2.step[b.unknown] = b.value) := by
  obtain ⟨r, h0, h1, hpinned, hshort⟩ :=
    limiter_pinned hordered hboxFactor hfactor nominal step minRatio hb ha hv h
  rw [Box.limitStep_step, hpinned.finalStep, ha, hv, finite_sub, abs_finite]
  have hwithin : Within (finite low) (finite high) (finite a : Exact K) := by
    obtain ⟨rfl, rfl⟩ | ⟨rfl, rfl⟩ := hends
    · exact ⟨hle, exact_le_self (finite_ne_nan _)⟩
    · exact ⟨exact_le_self (finite_ne_nan _), hle⟩
  refine ⟨(fits_towards hends hle h0 h1).stays hwithin, fun hall => ?_⟩
  rw [hshort hall, mul_one, finite_add, add_sub_cancel]

/-- A limited step keeps every unknown inside its bounds on its whole length. An unknown that is
beyond a bound goes back, no farther than to the bound; it reaches the bound unless the move is
longer than its size admits. Nothing depends on what earlier steps did to the bounds. -/
theorem limitStep_stays {box : Box (Exact K) n}
    (hbox : box.blank = (Box.ofBounds lower upper boxFactor).blank) (nominal : Vector (Exact K) n)
    (minRatio : Exact K) (i : Fin n) :
    let move := (box.limitStep x nominal step minRatio factor).2.step[i]
    (Within lower[i] upper[i] x[i] → Stays lower[i] upper[i] x[i] move) ∧
      (isFinite upper[i] = true → upper[i] < x[i] → Stays upper[i] x[i] x[i] move ∧
        ((∀ c, factor = some c →
            abs (upper[i] - x[i]) ≤ Limiter.sizeCap box.rangeLimits x nominal c i) →
          x[i] + move = upper[i])) ∧
      (isFinite lower[i] = true → x[i] < lower[i] → Stays x[i] lower[i] x[i] move ∧
        ((∀ c, factor = some c →
            abs (lower[i] - x[i]) ≤ Limiter.sizeCap box.rangeLimits x nominal c i) →
          x[i] + move = lower[i])) := by
  have hlimits := congrArg Box.rangeLimits hbox
  change box.rangeLimits = (Box.ofBounds lower upper boxFactor).rangeLimits at hlimits
  obtain ⟨a, ha⟩ := isFinite_iff.1 (hx i)
  rw [← Box.limitStep_of_blank, hbox, Box.limitStep_of_blank, hlimits]
  refine ⟨fun hi => ?_, fun hfinite habove => ?_, fun hfinite hbelow => ?_⟩
  · obtain ⟨hsound, hheeds⟩ :=
      limiter_sound hordered hx hstep hboxFactor hfactor nominal minRatio
    obtain ⟨hlow, hhigh⟩ := ends_of_within hi
    rw [Box.limitStep_step]
    exact (hsound.finalStep hlow hhigh hi hheeds).stays hi
  · obtain ⟨v, hv⟩ := isFinite_iff.1 hfinite
    have hle := habove.1
    rw [hv, ha] at hle
    have hback := limitStep_back hordered hboxFactor hfactor nominal step minRatio
      (upper_mem_ofBounds boxFactor hfinite) ha hv (fun h => habove.2 (ha ▸ h)) (.inl ⟨rfl, rfl⟩) hle
    rw [← hv, ← ha] at hback
    exact hback
  · obtain ⟨v, hv⟩ := isFinite_iff.1 hfinite
    have hle := hbelow.1
    rw [hv, ha] at hle
    have hback := limitStep_back hordered hboxFactor hfactor nominal step minRatio
      (lower_mem_ofBounds boxFactor hfinite) ha hv (fun h => hbelow.2 (ha ▸ h)) (.inr ⟨rfl, rfl⟩) hle
    rw [← hv, ← ha] at hback
    exact hback

end

end

/-! ## Three unknowns, two of them outside -/

/-- The first unknown may go to either side, the second one is above its interval, and the third one
is below its only bound. -/
def scatteredBox : Box (Exact ℚ) 3 :=
  .ofBounds #v[-1, 0, -1] #v[1, 1, infinity] (some 0.5)

/-- The first unknown stops at its bound or before, the second one reaches its bound, and the third
one comes nearer to it. -/
theorem limitStep_stays_scattered :
    let limited := (scatteredBox.limitStep #v[0, 2, -40] #v[1, 1, 1] #v[4, 1, 3] 0.1 (some 0.5)).2.step
    Stays (-1 : Exact ℚ) 1 0 limited[0] ∧
      (Stays (1 : Exact ℚ) 2 2 limited[1] ∧ (2 : Exact ℚ) + limited[1] = 1) ∧
      Stays (-40 : Exact ℚ) (-1) (-40) limited[2] := by
  have hordered : ∀ i : Fin 3, (#v[-1, 0, -1] : Vector (Exact ℚ) 3)[i] ≤ #v[1, 1, infinity][i] := by
    decide +kernel
  have hx : ∀ i : Fin 3, isFinite (#v[0, 2, -40] : Vector (Exact ℚ) 3)[i] = true := by
    decide +kernel
  have hstep : ∀ i : Fin 3, isFinite (#v[4, 1, 3] : Vector (Exact ℚ) 3)[i] = true := by
    decide +kernel
  have hfactor : ∀ c : Exact ℚ, some 0.5 = some c → 0 < c := by
    rintro c ⟨⟩
    decide +kernel
  have hbox : scatteredBox.blank = scatteredBox.blank := rfl
  have hstays := limitStep_stays hordered hx hstep hfactor hfactor hbox #v[1, 1, 1] 0.1
  refine ⟨(hstays 0).1 ⟨by decide +kernel, by decide +kernel⟩, ?_, ?_⟩
  · obtain ⟨hback, hreached⟩ := (hstays 1).2.1 (by decide +kernel) (by decide +kernel)
    refine ⟨hback, hreached ?_⟩
    rintro c ⟨⟩
    decide +kernel
  · exact ((hstays 2).2.2 (by decide +kernel) (by decide +kernel)).1

end AlgebraicLoop
