import AlgebraicLoop.Proofs.LimitedSteps

/-!
# What a limited step reports

A step that is limited from a point inside the bounds only gets shorter, and the report and the
effects noted with the bounds tell what was done to it.

* `Limiter.Traced`: a step while it is being limited, against the step that was asked for;
* `Traced.meetAll`, `Traced.capAll`: the bounds and the sizes keep it so;
* `Box.Reports`, `limitStep_reports`: the limited step, its report, and the effects of the bounds.
-/

namespace AlgebraicLoop
set_option autoImplicit false

open Exact

section
variable {K : Type} [Field K] [LinearOrder K] [IsStrictOrderedRing K] [SquareRoot K] {n : Nat}

/-- The move is a part of the other one, in the same direction. -/
def PartOf (move whole : Exact K) : Prop :=
  ∃ m r : K, whole = finite m ∧ move = finite (m * r) ∧ 0 ≤ r ∧ r ≤ 1

omit [SquareRoot K] in
theorem partOf_self (m : K) : PartOf (finite m) (finite m) :=
  ⟨m, 1, rfl, by rw [mul_one], zero_le_one, le_refl 1⟩

omit [SquareRoot K] in
theorem PartOf.trans {move mid whole : Exact K} (h : PartOf move mid) (h' : PartOf mid whole) :
    PartOf move whole := by
  obtain ⟨m, r, rfl, rfl, h0, h1⟩ := h
  obtain ⟨w, p, rfl, hp, hp0, hp1⟩ := h'
  obtain rfl : m = w * p := Exact.finite.inj hp
  exact ⟨w, p * r, rfl, by rw [mul_assoc], mul_nonneg hp0 h0, mul_le_one₀ hp1 h0 h1⟩

theorem PartOf.abs_le {move whole : Exact K} (h : PartOf move whole) : abs move ≤ abs whole := by
  obtain ⟨m, r, rfl, rfl, h0, h1⟩ := h
  rw [abs_finite, abs_finite, finite_le_finite, abs_mul, abs_of_nonneg h0]
  exact mul_le_of_le_one_right (abs_nonneg m) h1

theorem PartOf.same_side {move whole : Exact K} (h : PartOf move whole) : 0 ≤ move * whole := by
  obtain ⟨m, r, rfl, rfl, h0, _⟩ := h
  rw [finite_mul, zero_eq, finite_le_finite, mul_right_comm]
  exact mul_nonneg (mul_self_nonneg m) h0

/-- A bound that a move passes admits a part of it, less than the whole. -/
theorem Bound.Among.stops {lower upper : Vector (Exact K) n} {b : Bound (Exact K) n} {a m : K}
    (hb : b.Among lower upper) (ha : Within lower[b.unknown] upper[b.unknown] (finite a))
    (h : b.crossedBy (b.distance (finite a)) (finite m) = true) :
    ∃ q, b.distance (finite a) / finite m = finite q ∧ b.distance (finite a) = finite (m * q) ∧
      0 ≤ q ∧ q < 1 := by
  obtain ⟨a', v, c, ⟨⟩, hv, hdistance, hpos, _, hadmits⟩ | ⟨_, hfar⟩ := hb.distance_cases ha
  · unfold Bound.crossedBy at h
    unfold Bound.Admits at hadmits
    rw [hdistance] at h ⊢
    cases hside : b.side with
    | upper =>
      rw [hside] at h hadmits
      have hlt : (v - a) * c < m := finite_lt_finite.1 (of_decide_eq_true h)
      have hroom : 0 ≤ (v - a) * c := by
        dsimp only at hadmits
        rw [hv, finite_le_finite] at hadmits
        exact mul_nonneg (sub_nonneg.2 hadmits) hpos.le
      have hm : 0 < m := hroom.trans_lt hlt
      exact ⟨(v - a) * c / m, finite_div _ hm.ne', by rw [mul_div_cancel₀ _ hm.ne'],
        div_nonneg hroom hm.le, (div_lt_one hm).2 hlt⟩
    | lower =>
      rw [hside] at h hadmits
      have hlt : m < (v - a) * c := finite_lt_finite.1 (of_decide_eq_true h)
      have hroom : (v - a) * c ≤ 0 := by
        dsimp only at hadmits
        rw [hv, finite_le_finite] at hadmits
        exact mul_nonpos_of_nonpos_of_nonneg (sub_nonpos.2 hadmits) hpos.le
      have hm : m < 0 := hlt.trans_le hroom
      exact ⟨(v - a) * c / m, finite_div _ hm.ne, by rw [mul_div_cancel₀ _ hm.ne],
        div_nonneg_of_nonpos hroom hm.le, (div_lt_one_of_neg hm).2 hlt⟩
  · rw [(hfar m).1] at h
    cases h

/-! ## A step while it is being limited -/

/-- Does the bound pin its unknown? -/
def Bound.pins {α : Type} {n : Nat} (i : Fin n) (b : Bound α n) : Bool :=
  decide (b.unknown = i ∧ b.effect = .active)

/-- A step that is being limited, against the one that was asked for, when the bounds in `done` have
acted. An unknown that is not pinned still has its move, and a pinned one a part of it. -/
structure Limiter.Traced (step : Vector (Exact K) n) (done : List (Bound (Exact K) n))
    (l : Limiter (Exact K) n) : Prop where
  ratio : ∃ q, l.ratio = finite q ∧ 0 < q ∧ q ≤ 1
  free : ∀ i : Fin n, l.pins[i] = none → l.step[i] = step[i]
  pinned : ∀ (i : Fin n) (move : Exact K), l.pins[i] = some move →
    l.step[i] = 0 ∧ PartOf move step[i]
  marks : ∀ i : Fin n, l.pins[i].isSome = done.any (Bound.pins i)
  clear : ∀ b ∈ done, b.effect ≠ .limiting
  limiting : ∀ k, l.limiting = some k →
    l.rangeLimited = none ∧ ∃ b, done[k]? = some b ∧ b.effect = .inactive
  whole : l.ratio = 1 ↔ l.limiting = none ∧ l.rangeLimited = none

namespace Limiter
variable {lower upper x step : Vector (Exact K) n} {done : List (Bound (Exact K) n)}
  {l : Limiter (Exact K) n}

theorem traced_start : (start step).Traced step [] where
  ratio := ⟨1, one_eq, zero_lt_one, le_refl 1⟩
  free _ _ := rfl
  pinned i move h := by
    change (Vector.replicate n none)[i] = some move at h
    rw [getElem_position, Vector.getElem_replicate] at h
    cases h
  marks i := by
    change (Vector.replicate n none)[i].isSome = _
    rw [getElem_position, Vector.getElem_replicate]
    rfl
  clear := nofun
  limiting := nofun
  whole := ⟨fun _ => ⟨rfl, rfl⟩, fun _ => rfl⟩

omit [IsStrictOrderedRing K] in
/-- A bound that shortened the step keeps its place when others act after it. -/
theorem Traced.limiting_append (h : l.Traced step done) (b : Bound (Exact K) n) {k : Nat}
    (hk : l.limiting = some k) :
    l.rangeLimited = none ∧ ∃ b', (done ++ [b])[k]? = some b' ∧ b'.effect = .inactive := by
  obtain ⟨hrange, b', hb', heffect⟩ := h.limiting k hk
  obtain ⟨hlt, _⟩ := List.getElem?_eq_some_iff.1 hb'
  exact ⟨hrange, b', by rw [List.getElem?_append_left hlt, hb'], heffect⟩

omit [IsStrictOrderedRing K] in
theorem Traced.pass (h : l.Traced step done) (b : Bound (Exact K) n) :
    l.Traced step (done ++ [{ b with effect := .inactive }]) where
  ratio := h.ratio
  free := h.free
  pinned := h.pinned
  marks i := by
    rw [h.marks i, List.any_append]
    simp [Bound.pins]
  clear := by
    simp only [List.mem_append, List.mem_singleton]
    rintro b' (hb' | rfl)
    · exact h.clear b' hb'
    · nofun
  limiting _ hk := h.limiting_append _ hk
  whole := h.whole

omit [IsStrictOrderedRing K] in
/-- A bound that pins its unknown to a part of its move. -/
theorem Traced.pin (h : l.Traced step done) (b : Bound (Exact K) n) {move : Exact K}
    (hmove : PartOf move step[b.unknown]) :
    (l.pin b.unknown move).Traced step (done ++ [{ b with effect := .active }]) where
  ratio := h.ratio
  free i := by
    change (l.pins.set b.unknown (some move))[i] = none → (l.step.set b.unknown 0)[i] = _
    rw [getElem_set_fin, getElem_set_fin]
    split
    · nofun
    · exact h.free i
  pinned i m := by
    change (l.pins.set b.unknown (some move))[i] = some m → (l.step.set b.unknown 0)[i] = 0 ∧ _
    rw [getElem_set_fin, getElem_set_fin]
    split
    · next hi =>
      subst hi
      rintro ⟨⟩
      exact ⟨rfl, hmove⟩
    · exact h.pinned i m
  marks i := by
    change (l.pins.set b.unknown (some move))[i].isSome = _
    rw [getElem_set_fin, List.any_append, ← h.marks i]
    split
    · next hi => simp [Bound.pins, hi]
    · next hi => simp [Bound.pins, hi]
  clear := by
    simp only [List.mem_append, List.mem_singleton]
    rintro b' (hb' | rfl)
    · exact h.clear b' hb'
    · nofun
  limiting _ hk := h.limiting_append _ hk
  whole := h.whole

omit [Field K] [LinearOrder K] [IsStrictOrderedRing K] [SquareRoot K] in
theorem meet_rangeLimited {α : Type} [Scalar α] (x : Vector α n) (minRatio : α) (l : Limiter α n)
    (k : Nat) (b : Bound α n) : (l.meet x minRatio k b).2.rangeLimited = l.rangeLimited := by
  unfold Limiter.meet
  dsimp only
  by_cases hviolated : b.violatedBy (b.distance x[b.unknown]) = true
  · rw [if_pos hviolated]
    rfl
  · rw [if_neg hviolated]
    split
    · rfl
    · split
      · rfl
      · split <;> rfl

/-- A bound that acts leaves the step traced, with its effect noted. -/
theorem Traced.meet (h : l.Traced step done) (hrange : l.rangeLimited = none)
    {b : Bound (Exact K) n} (hb : b.Among lower upper) (hx : isFinite x[b.unknown] = true)
    (hin : Within lower[b.unknown] upper[b.unknown] x[b.unknown])
    (hstep : isFinite step[b.unknown] = true) {minRatio : Exact K} (hmin : 0 < minRatio) :
    (l.meet x minRatio done.length b).2.Traced step
      (done ++ [(l.meet x minRatio done.length b).1]) := by
  obtain ⟨a, ha⟩ := isFinite_iff.1 hx
  unfold Limiter.meet
  dsimp only
  rw [if_neg (by rw [hb.not_violated hin]; exact Bool.false_ne_true)]
  split
  · exact h.pass b
  · next hmoves =>
    obtain ⟨hzero, hcrossed⟩ := not_or.1 hmoves
    -- A pinned unknown no longer moves, so the bound is the first one that its unknown passes.
    have hfree : l.pins[b.unknown] = none := by
      cases hpin : l.pins[b.unknown] with
      | none => rfl
      | some move =>
        refine absurd ?_ hzero
        rw [(h.pinned _ move hpin).1]
        exact beq_iff.2 ⟨le_refl _, le_refl _⟩
    obtain ⟨m, hm⟩ := isFinite_iff.1 hstep
    rw [h.free _ hfree, hm, ha] at hcrossed ⊢
    rw [ha] at hin
    obtain ⟨q, hpart, hdistance, hq0, hq1⟩ := hb.stops hin (by simpa using hcrossed)
    rw [hpart]
    by_cases hshort : finite q < minRatio
    · rw [if_pos hshort]
      exact h.pin b ⟨m, q, hm, hdistance, hq0, hq1.le⟩
    · rw [if_neg hshort]
      obtain ⟨c, _, hcpos, hcq⟩ := finite_of_not_lt hmin hshort
      split
      · refine { h.pass b with ratio := ⟨q, rfl, hcpos.trans_le hcq, hq1.le⟩, limiting := ?_, whole := ?_ }
        · rintro k ⟨⟩
          refine ⟨hrange, { b with effect := .inactive }, ?_, rfl⟩
          rw [List.getElem?_append_right (le_refl _), Nat.sub_self]
          rfl
        · refine ⟨fun hone => ?_, fun hnone => absurd hnone.1 nofun⟩
          change finite q = 1 at hone
          rw [one_eq] at hone
          exact absurd (Exact.finite.inj hone) hq1.ne
      · exact h.pass b

theorem Traced.meetAll (hx : ∀ i : Fin n, isFinite x[i] = true)
    (hin : ∀ i : Fin n, Within lower[i] upper[i] x[i])
    (hstep : ∀ i : Fin n, isFinite step[i] = true) {minRatio : Exact K} (hmin : 0 < minRatio)
    {bounds : List (Bound (Exact K) n)} (hbounds : ∀ b ∈ bounds, b.Among lower upper)
    (h : l.Traced step done) (hrange : l.rangeLimited = none) :
    (meetAll x minRatio done.length bounds l).2.Traced step
      (done ++ (meetAll x minRatio done.length bounds l).1) := by
  induction bounds generalizing done l with
  | nil =>
    change l.Traced step (done ++ [])
    rwa [List.append_nil]
  | cons b bounds ih =>
    obtain ⟨hb, hbounds⟩ := List.forall_mem_cons.1 hbounds
    have hmet := h.meet hrange hb (hx _) (hin _) (hstep _) hmin
    have hrest := ih hbounds hmet (by rw [meet_rangeLimited, hrange])
    rw [List.length_append, List.append_assoc] at hrest
    exact hrest

/-! ## The sizes of the unknowns -/

omit [IsStrictOrderedRing K] in
theorem finalStep_entry (l : Limiter (Exact K) n) (i : Fin n) :
    l.finalStep[i] = l.pins[i].getD (l.step[i] * l.ratio) :=
  Vector.getElem_zipWith i.isLt

omit [IsStrictOrderedRing K] in
/-- What becomes of an unknown that is being limited. -/
theorem Traced.partOf (h : l.Traced step done) (hstep : ∀ i : Fin n, isFinite step[i] = true)
    (i : Fin n) : PartOf l.finalStep[i] step[i] := by
  rw [finalStep_entry]
  cases hpin : l.pins[i] with
  | some move => exact (h.pinned i move hpin).2
  | none =>
    obtain ⟨m, hm⟩ := isFinite_iff.1 (hstep i)
    obtain ⟨q, hq, hq0, hq1⟩ := h.ratio
    rw [h.free i hpin, hm, hq]
    exact ⟨m, q, rfl, rfl, hq0.le, hq1⟩

theorem Traced.partOf_self (h : l.Traced step done)
    (hstep : ∀ i : Fin n, isFinite step[i] = true) (i : Fin n) :
    PartOf l.finalStep[i] l.finalStep[i] := by
  obtain ⟨m, r, _, hm, _⟩ := h.partOf hstep i
  rw [hm]
  exact AlgebraicLoop.partOf_self _

/-- An unknown without a length does not move. -/
theorem Sound.at_rest (h : l.Sound lower upper x) {i : Fin n} (hlength : l.lengthAt? i = none) :
    l.finalStep[i] = finite 0 := by
  obtain ⟨m, hm⟩ := h.step i
  obtain ⟨q, hq, _⟩ := h.ratio
  unfold lengthAt? at hlength
  rw [hm, abs_finite, zero_eq] at hlength
  rw [finalStep_entry]
  dsimp only at hlength
  split at hlength
  · cases hlength
  · next hstill =>
    rw [gt_iff_lt, finite_lt_finite, abs_pos, not_not] at hstill
    cases hpin : l.pins[i] with
    | none =>
      rw [hm, hstill, hq, finite_mul, zero_mul]
      rfl
    | some move =>
      rw [hpin] at hlength
      obtain ⟨d, rfl⟩ := isFinite_iff.1 (h.pins i move hpin).2.proper
      by_cases hd : (finite d == finite (0 : K)) = true
      · obtain ⟨hle, hge⟩ := beq_iff.1 hd
        exact congrArg finite (le_antisymm hle hge)
      · dsimp only at hlength
        rw [if_neg hd] at hlength
        cases hlength

/-- The step is shortened as a whole, for the sake of one unknown that may move by `c`. -/
theorem Traced.shorten (h : l.Traced step done) (hstep : ∀ i : Fin n, isFinite step[i] = true)
    {i : Fin n} {m c : K} (hpin : l.pins[i] = none) (hm : l.step[i] = finite m) (hm0 : 0 < |m|)
    (hc : 0 < c) (hlt : finite (c / |m|) < l.ratio) :
    let l' : Limiter (Exact K) n :=
      { l with ratio := finite (c / |m|), rangeLimited := some i, limiting := none }
    l'.Traced step done ∧ (∀ j : Fin n, PartOf l'.finalStep[j] l.finalStep[j]) ∧
      abs l'.finalStep[i] ≤ finite c := by
  obtain ⟨q, hq, hq0, hq1⟩ := h.ratio
  rw [hq, finite_lt_finite] at hlt
  have hp0 : 0 < c / |m| := div_pos hc hm0
  have hp1 : c / |m| < 1 := hlt.trans_le hq1
  refine ⟨?_, fun j => ?_, ?_⟩
  · refine { h with ratio := ⟨_, rfl, hp0, hp1.le⟩, limiting := nofun, whole := ?_ }
    refine ⟨fun hone => ?_, fun hnone => absurd hnone.2 nofun⟩
    change finite (c / |m|) = 1 at hone
    rw [one_eq] at hone
    exact absurd (Exact.finite.inj hone) hp1.ne
  · rw [finalStep_entry, finalStep_entry]
    cases hpin : l.pins[j] with
    | some move =>
      obtain ⟨m, r, _, rfl, _⟩ := (h.pinned j move hpin).2
      exact AlgebraicLoop.partOf_self _
    | none =>
      obtain ⟨w, hw⟩ := isFinite_iff.1 (hstep j)
      change PartOf (l.step[j] * finite (c / |m|)) (l.step[j] * l.ratio)
      rw [h.free j hpin, hw, hq]
      refine ⟨w * q, c / |m| / q, rfl, ?_, (div_pos hp0 hq0).le, ((div_lt_one hq0).2 hlt).le⟩
      rw [finite_mul, mul_assoc, mul_div_cancel₀ _ hq0.ne']
  · rw [finalStep_entry, hpin]
    change abs (l.step[i] * finite (c / |m|)) ≤ _
    rw [hm, finite_mul, abs_finite, finite_le_finite, abs_mul, abs_of_pos hp0,
      mul_div_cancel₀ _ hm0.ne']

/-- A pinned move is cut to the length `c`. -/
theorem Traced.repin (h : l.Traced step done) (hstep : ∀ i : Fin n, isFinite step[i] = true)
    {i : Fin n} {d c : K} (hpin : l.pins[i] = some (finite d)) (hc : 0 < c) (hle : c ≤ |d|) :
    let l' : Limiter (Exact K) n :=
      { l with pins := l.pins.set i (some (finite (d * (c / |d|)))) i.isLt }
    l'.Traced step done ∧ (∀ j : Fin n, PartOf l'.finalStep[j] l.finalStep[j]) ∧
      abs l'.finalStep[i] ≤ finite c := by
  have hlen : 0 < |d| := hc.trans_le hle
  have h0 : 0 < c / |d| := div_pos hc hlen
  have hpart : PartOf (finite (d * (c / |d|))) (finite d) :=
    ⟨d, c / |d|, rfl, rfl, h0.le, div_le_one_of_le₀ hle hlen.le⟩
  refine ⟨?_, fun j => ?_, ?_⟩
  · refine { h with free := fun j => ?_, pinned := fun j move => ?_, marks := fun j => ?_ }
    · change (l.pins.set i _)[j] = none → _
      rw [getElem_set_fin]
      split
      · intro hfree
        cases hfree
      · exact h.free j
    · change (l.pins.set i _)[j] = some move → _
      rw [getElem_set_fin]
      split
      · next hj =>
        subst hj
        rintro ⟨⟩
        exact ⟨(h.pinned i _ hpin).1, hpart.trans (h.pinned i _ hpin).2⟩
      · exact h.pinned j move
    · change (l.pins.set i _)[j].isSome = _
      rw [getElem_set_fin, ← h.marks j]
      split
      · next hj =>
        rw [← hj, hpin]
        rfl
      · rfl
  · rw [finalStep_entry, finalStep_entry]
    change PartOf ((l.pins.set i _)[j].getD (l.step[j] * l.ratio)) _
    rw [getElem_set_fin]
    by_cases hj : i = j
    · rw [if_pos hj, ← hj, hpin]
      exact hpart
    · rw [if_neg hj, ← finalStep_entry]
      exact h.partOf_self hstep j
  · rw [finalStep_entry]
    change abs ((l.pins.set i _)[i].getD _) ≤ _
    rw [getElem_set_fin, if_pos rfl]
    change finite |d * (c / |d|)| ≤ finite c
    rw [finite_le_finite, abs_mul, abs_of_pos h0, mul_div_cancel₀ _ hlen.ne']

variable {rangeLimits nominal : Vector (Exact K) n} {factor : Exact K}

/-- The size of an unknown leaves the step traced, and what it admits is not exceeded after that.
No unknown gets a longer move. -/
theorem Traced.cap (h : l.Traced step done) (hstep : ∀ i : Fin n, isFinite step[i] = true)
    (hsound : l.Sound lower upper x) {i : Fin n}
    (hcap : 0 < sizeCap rangeLimits x nominal factor i) :
    (l.cap rangeLimits x nominal factor i).Traced step done ∧
      (∀ j : Fin n, PartOf (l.cap rangeLimits x nominal factor i).finalStep[j] l.finalStep[j]) ∧
      abs (l.cap rangeLimits x nominal factor i).finalStep[i] ≤
        sizeCap rangeLimits x nominal factor i := by
  have hsize : sizeCap rangeLimits x nominal factor i =
      smaller rangeLimits[i] (if larger (abs nominal[i]) (abs x[i]) > 0 then
        larger (abs nominal[i]) (abs x[i]) * factor else infinity) := rfl
  unfold Limiter.cap
  cases hlength : l.lengthAt? i with
  | none =>
    refine ⟨h, h.partOf_self hstep, ?_⟩
    change abs l.finalStep[i] ≤ _
    rw [hsound.at_rest hlength, abs_finite, abs_zero, ← zero_eq]
    exact hcap.1
  | some length =>
    dsimp only
    rw [← hsize]
    generalize sizeCap rangeLimits x nominal factor i = limit at hcap ⊢
    obtain ⟨q, hq, hq0, hq1⟩ := h.ratio
    by_cases hshort : length < limit
    · rw [if_pos hshort]
      refine ⟨h, h.partOf_self hstep, exact_le_trans ?_ hshort.1⟩
      rw [finalStep_entry]
      obtain ⟨m, hm, _, hpin, rfl⟩ | ⟨d, hpin, rfl⟩ := hsound.lengthAt hlength
      · rw [hpin, hm, hq]
        exact PartOf.abs_le ⟨m, q, rfl, rfl, hq0.le, hq1⟩
      · rw [hpin]
        exact le_refl |d|
    · rw [if_neg hshort]
      obtain ⟨m, hm, hm0, hpin, rfl⟩ | ⟨d, hpin, rfl⟩ := hsound.lengthAt hlength
      · obtain ⟨c, rfl, hc, _⟩ := finite_of_not_lt hcap hshort
        have hlen : 0 < |m| := abs_pos.2 hm0
        rw [hpin, finite_div _ hlen.ne']
        by_cases hlt : finite (c / |m|) < l.ratio
        · dsimp only
          rw [if_pos hlt]
          exact h.shorten hstep hpin hm hlen hc hlt
        · dsimp only
          rw [if_neg hlt]
          refine ⟨h, h.partOf_self hstep, ?_⟩
          rw [hq, finite_lt_finite, not_lt] at hlt
          rw [finalStep_entry, hpin, hm, hq]
          change finite |m * q| ≤ finite c
          rw [finite_le_finite, abs_mul, abs_of_pos hq0]
          calc |m| * q ≤ |m| * (c / |m|) := mul_le_mul_of_nonneg_left hlt hlen.le
            _ = c := mul_div_cancel₀ _ hlen.ne'
      · obtain ⟨c, rfl, hc, hle⟩ := finite_of_not_lt hcap hshort
        rw [hpin]
        dsimp only
        rw [copySign_eq_mul hc.le (abs_pos.1 (hc.trans_le hle))]
        exact h.repin hstep hpin hc hle

/-- The sizes of all unknowns, one after the other: each is respected in the end. -/
theorem Traced.capAll (h : l.Traced step done) (hstep : ∀ i : Fin n, isFinite step[i] = true)
    (hsound : l.Sound lower upper x) (hx : ∀ i : Fin n, Within lower[i] upper[i] x[i])
    (hfactor : 0 < factor) (hrange : ∀ i : Fin n, 0 < rangeLimits[i]) (is : List (Fin n)) :
    (is.foldl (Limiter.cap rangeLimits x nominal factor) l).Traced step done ∧
      (∀ j : Fin n,
        PartOf (is.foldl (Limiter.cap rangeLimits x nominal factor) l).finalStep[j] l.finalStep[j]) ∧
      ∀ i ∈ is, abs (is.foldl (Limiter.cap rangeLimits x nominal factor) l).finalStep[i] ≤
        sizeCap rangeLimits x nominal factor i := by
  induction is generalizing l with
  | nil => exact ⟨h, h.partOf_self hstep, nofun⟩
  | cons i is ih =>
    have hcap : 0 < sizeCap rangeLimits x nominal factor i := sizeCap_pos hfactor (hrange i)
    obtain ⟨hcapped, hparts, hsize⟩ := h.cap hstep hsound hcap
    obtain ⟨hsound', _⟩ :
        _ ∧ l.Tighter (l.cap rangeLimits x nominal factor i) := hsound.cap hx hfactor (hrange i)
    obtain ⟨hall, hparts', hsizes⟩ := ih hcapped hsound'
    refine ⟨hall, fun j => (hparts' j).trans (hparts j), List.forall_mem_cons.2 ⟨?_, hsizes⟩⟩
    exact exact_le_trans (hparts' i).abs_le hsize

end Limiter

/-! ## The report -/

omit [Field K] [LinearOrder K] [IsStrictOrderedRing K] [SquareRoot K] in
theorem Box.limitStep_eq {α : Type} [Scalar α] (box : Box α n) (x nominal step : Vector α n)
    (minRatio : α) (factor : Option α) :
    box.limitStep x nominal step minRatio factor =
      let done := (Limiter.meetAll x minRatio 0 box.bounds (Limiter.start step)).1
      let l := box.limiter x nominal step minRatio factor
      ({ box with bounds := match l.limiting with
          | some k => done.modify k fun b => { b with effect := .limiting }
          | none => done },
        { step := l.finalStep
          ratio := l.ratio
          active := l.pins.countP Option.isSome
          limiting := l.limiting.bind fun k => done[k]?.map Bound.unknown
          rangeLimited := l.rangeLimited }) := by
  cases factor <;> rfl

theorem smaller_le {p q : Exact K} (hp : p ≠ nan) (hq : q ≠ nan) :
    smaller p q ≤ p ∧ smaller p q ≤ q := by
  unfold smaller
  split
  · next h =>
    obtain h | h := h
    · exact absurd (isNaN_iff.1 h) hq
    · exact ⟨exact_le_self hp, h.1⟩
  · next h => exact ⟨exact_le_of_not_lt hp hq (not_or.1 h).2, exact_le_self hq⟩

theorem Limiter.sizeCap_le (x nominal : Vector (Exact K) n) {rangeLimits : Vector (Exact K) n}
    {c : Exact K} (hc : 0 < c) {i : Fin n} (hrange : 0 < rangeLimits[i]) :
    sizeCap rangeLimits x nominal c i ≤ rangeLimits[i] ∧
      sizeCap rangeLimits x nominal c i ≤ if larger (abs nominal[i]) (abs x[i]) > 0 then
        larger (abs nominal[i]) (abs x[i]) * c else infinity := by
  have hsize : 0 < if larger (abs nominal[i]) (abs x[i]) > 0 then
      larger (abs nominal[i]) (abs x[i]) * c else (infinity : Exact K) := by
    split
    · next hpos => exact exact_mul_pos hpos hc
    · exact ⟨trivial, id⟩
  exact smaller_le (ne_nan_of_le hrange.1).2 (ne_nan_of_le hsize.1).2

/-- What an interval admits that lies on one side of zero. -/
theorem rangeLimit_le {low high a c : Exact K} (hin : Within low high a)
    (hlow : isFinite low = true) (hhigh : isFinite high = true) (hdistinct : low ≠ high)
    (hsign : 0 < low * high) : Box.rangeLimit low high (some c) = c * (high - low) := by
  obtain ⟨u, rfl⟩ := isFinite_iff.1 hlow
  obtain ⟨v, rfl⟩ := isFinite_iff.1 hhigh
  have hle : u ≤ v := exact_le_trans hin.1 hin.2
  have hlt : u < v := lt_of_le_of_ne hle fun h => hdistinct (congrArg finite h)
  have hwidth : (finite v - finite u : Exact K) > 0 := by
    rw [finite_sub, zero_eq]
    exact finite_lt_finite.2 (sub_pos.2 hlt)
  unfold Box.rangeLimit
  dsimp only
  rw [if_pos ⟨rfl, rfl, hwidth, hsign⟩, exact_mul_comm]

omit [Field K] [LinearOrder K] [IsStrictOrderedRing K] [SquareRoot K] in
theorem countP_finRange {β : Type} (v : Vector β n) (p : β → Bool) :
    v.countP p = (List.finRange n).countP fun i => p v[i] := by
  obtain ⟨f, rfl⟩ : ∃ f : Fin n → β, v = Vector.ofFn f :=
    ⟨fun i => v[i], Vector.ext fun i hi => by rw [Vector.getElem_ofFn]; rfl⟩
  rw [← Vector.countP_toList, Vector.toList_ofFn, List.ofFn_eq_map, List.countP_map]
  refine List.countP_congr fun i _ => ?_
  rw [getElem_position, Vector.getElem_ofFn]
  rfl

omit [Field K] [LinearOrder K] [IsStrictOrderedRing K] [SquareRoot K] in
/-- Marking a bound that neither shortens nor pins anything makes it the only one that shortens. -/
theorem effects_modify {α : Type} {done : List (Bound α n)} {k : Nat} {b : Bound α n}
    (hb : done[k]? = some b) (heffect : b.effect = .inactive)
    (hclear : ∀ b ∈ done, b.effect ≠ .limiting) :
    let marked := done.modify k fun b => { b with effect := .limiting }
    (∀ i : Fin n, marked.any (Bound.pins i) = done.any (Bound.pins i)) ∧
      (marked.filter fun b => b.effect = .limiting).map Bound.unknown = [b.unknown] := by
  dsimp only
  induction done generalizing k with
  | nil => cases hb
  | cons first rest ih =>
    obtain ⟨hfirst, hrest⟩ := List.forall_mem_cons.1 hclear
    cases k with
    | zero =>
      obtain rfl : first = b := by simpa using hb
      refine ⟨fun i => ?_, ?_⟩
      · simp [Bound.pins, heffect]
      · rw [List.modify_zero_cons, List.filter_cons_of_pos (by simp),
          List.filter_eq_nil_iff.2 fun b' hb' => by simpa using hrest b' hb']
        rfl
    | succ k =>
      obtain ⟨hpins, hmarked⟩ := ih (by simpa using hb) hrest
      refine ⟨fun i => ?_, ?_⟩
      · rw [List.modify_succ_cons, List.any_cons, List.any_cons, hpins i]
      · rw [List.modify_succ_cons, List.filter_cons_of_neg (by simpa using hfirst), hmarked]

/-- What holds of a box and a report after a step from `x` was limited. -/
structure Box.Reports (lower upper x nominal step : Vector (Exact K) n) (factor : Option (Exact K))
    (box : Box (Exact K) n) (limited : StepLimit (Exact K) n) : Prop where
  /-- The unknowns that no bound pins are shortened by one ratio. -/
  ratio : 0 < limited.ratio ∧ limited.ratio ≤ 1 ∧
    ∀ i : Fin n, box.bounds.any (Bound.pins i) = false → limited.step[i] = step[i] * limited.ratio
  /-- No move gets longer or turns round. -/
  shorter : ∀ i : Fin n, abs limited.step[i] ≤ abs step[i] ∧ 0 ≤ limited.step[i] * step[i]
  /-- No move is longer than the size of its unknown admits. -/
  size : ∀ c, factor = some c → ∀ i : Fin n, 0 < larger (abs nominal[i]) (abs x[i]) →
    abs limited.step[i] ≤ c * larger (abs nominal[i]) (abs x[i])
  /-- No move is longer than the interval of its unknown admits. -/
  range : ∀ c, factor = some c → ∀ i : Fin n, isFinite lower[i] = true → isFinite upper[i] = true →
    lower[i] ≠ upper[i] → 0 < lower[i] * upper[i] →
    abs limited.step[i] ≤ c * (upper[i] - lower[i])
  /-- The unknowns with an active bound are counted. -/
  active : limited.active = (List.finRange n).countP fun i => box.bounds.any (Bound.pins i)
  /-- One bound is marked as limiting, that of the unknown in the report, or none is. -/
  limiting : (box.bounds.filter fun b => b.effect = .limiting).map Bound.unknown =
    limited.limiting.toList
  exclusive : limited.limiting = none ∨ limited.rangeLimited = none
  whole : limited.ratio = 1 ↔ limited.limiting = none ∧ limited.rangeLimited = none

section
variable {lower upper x step : Vector (Exact K) n} {factor : Option (Exact K)}
  (hx : ∀ i : Fin n, isFinite x[i] = true) (hin : ∀ i : Fin n, Within lower[i] upper[i] x[i])
  (hstep : ∀ i : Fin n, isFinite step[i] = true) {minRatio : Exact K} (hmin : 0 < minRatio)
  (hfactor : ∀ c, factor = some c → 0 < c)
include hx hin hstep hmin hfactor

theorem limiter_traced (nominal : Vector (Exact K) n) :
    ((Box.ofBounds lower upper factor).limiter x nominal step minRatio factor).Traced step
        (Limiter.meetAll x minRatio 0 (Box.ofBounds lower upper factor).bounds
          (Limiter.start step)).1 ∧
      ∀ c, factor = some c → ∀ i : Fin n,
        abs ((Box.ofBounds lower upper factor).limiter x nominal step minRatio factor).finalStep[i] ≤
          Limiter.sizeCap (Box.ofBounds lower upper factor).rangeLimits x nominal c i := by
  have hamong := among_ofBounds lower upper factor
  have hmet := Limiter.traced_start.meetAll hx hin hstep hmin hamong rfl
  cases factor with
  | none => exact ⟨hmet, nofun⟩
  | some c =>
    obtain ⟨hsound, _⟩ := (Limiter.sound_start hstep).meetAll
      (fun b hb => .inl ⟨hamong b hb, hin b.unknown⟩) minRatio 0
    obtain ⟨hall, _, hsizes⟩ : _ ∧ _ ∧ ∀ i ∈ List.finRange n, _ ≤ Limiter.sizeCap _ x nominal c i :=
      hmet.capAll hstep hsound hin (hfactor c rfl) (rangeLimits_pos lower upper hfactor) _
    refine ⟨hall, ?_⟩
    rintro _ ⟨⟩ i
    exact hsizes i (List.mem_finRange i)

omit [IsStrictOrderedRing K] hx hin hstep hmin hfactor in
/-- What a traced limiter leaves of the bounds: the one that shortened the step is marked. -/
theorem Limiter.Traced.marked {done : List (Bound (Exact K) n)} {l : Limiter (Exact K) n}
    (h : l.Traced step done) :
    let bounds := match l.limiting with
      | some k => done.modify k fun b => { b with effect := .limiting }
      | none => done
    (∀ i : Fin n, bounds.any (Bound.pins i) = l.pins[i].isSome) ∧
      (bounds.filter fun b => b.effect = .limiting).map Bound.unknown =
        (l.limiting.bind fun k => done[k]?.map Bound.unknown).toList := by
  dsimp only
  cases hlimiting : l.limiting with
  | none =>
    refine ⟨fun i => (h.marks i).symm, ?_⟩
    rw [List.filter_eq_nil_iff.2 fun b hb => by simpa using h.clear b hb]
    rfl
  | some k =>
    obtain ⟨_, b, hb, heffect⟩ := h.limiting k hlimiting
    obtain ⟨hpins, hmarked⟩ := effects_modify hb heffect h.clear
    refine ⟨fun i => by rw [hpins i, h.marks i], ?_⟩
    rw [hmarked, Option.bind_some, hb]
    rfl

/-- A step that is limited from a point inside the bounds gets shorter and does not turn round, and
the report tells what was done to it. Nothing depends on what earlier steps did to the bounds. -/
theorem limitStep_reports {box : Box (Exact K) n}
    (hbox : box.blank = (Box.ofBounds lower upper factor).blank) (nominal : Vector (Exact K) n) :
    Box.Reports lower upper x nominal step factor
      (box.limitStep x nominal step minRatio factor).1
      (box.limitStep x nominal step minRatio factor).2 := by
  rw [← Box.limitStep_of_blank, hbox, Box.limitStep_of_blank, Box.limitStep_eq]
  obtain ⟨htraced, hsizes⟩ := limiter_traced hx hin hstep hmin hfactor nominal
  have hrange := rangeLimits_pos lower upper hfactor
  generalize (Box.ofBounds lower upper factor).limiter x nominal step minRatio factor = l at *
  generalize (Limiter.meetAll x minRatio 0 (Box.ofBounds lower upper factor).bounds
    (Limiter.start step)).1 = done at *
  obtain ⟨hpins, hmarked⟩ := htraced.marked
  obtain ⟨q, hq, hq0, hq1⟩ := htraced.ratio
  have hparts := htraced.partOf hstep
  dsimp only
  constructor
  case ratio =>
    refine ⟨?_, ?_, fun i hi => ?_⟩
    · rw [hq, zero_eq]
      exact finite_lt_finite.2 hq0
    · rw [hq, one_eq]
      exact finite_le_finite.2 hq1
    · rw [hpins i, Option.isSome_eq_false_iff, Option.isNone_iff_eq_none] at hi
      change l.finalStep[i] = _
      rw [Limiter.finalStep_entry, hi, htraced.free i hi]
      rfl
  case shorter => exact fun i => ⟨(hparts i).abs_le, (hparts i).same_side⟩
  case size =>
    intro c hc i hpos
    have hcap := Limiter.sizeCap_le x nominal (hfactor c hc) (hrange i)
    rw [if_pos hpos] at hcap
    rw [exact_mul_comm]
    exact exact_le_trans (hsizes c hc i) hcap.2
  case range =>
    intro c hc i hlow hhigh hdistinct hsign
    have hcap := Limiter.sizeCap_le x nominal (hfactor c hc) (hrange i)
    have hentry : (Box.ofBounds lower upper factor).rangeLimits[i] =
        c * (upper[i] - lower[i]) := by
      refine (Vector.getElem_zipWith i.isLt).trans ?_
      rw [hc]
      exact rangeLimit_le (hin i) hlow hhigh hdistinct hsign
    rw [← hentry]
    exact exact_le_trans (hsizes c hc i) hcap.1
  case active =>
    refine (countP_finRange l.pins Option.isSome).trans (List.countP_congr fun i _ => ?_)
    rw [← hpins i]
  case limiting => exact hmarked
  case exclusive =>
    cases hlimiting : l.limiting with
    | none => exact .inl rfl
    | some k => exact .inr (htraced.limiting k hlimiting).1
  case whole =>
    rw [htraced.whole]
    cases hlimiting : l.limiting with
    | none => simp
    | some k =>
      obtain ⟨_, b, hb, _⟩ := htraced.limiting k hlimiting
      simp [hb]

end

end

/-! ## Three unknowns, the first one at its bound -/

/-- Each unknown may go from minus one to one, the last one up to any number. -/
def cornerBox : Box (Exact ℚ) 3 :=
  .ofBounds (.replicate 3 (-1)) ((Vector.replicate 2 1).push infinity) (some 8)

/-- After a step that ended at the bound of the first unknown, the next one is pinned there and is
shortened for the sake of the second unknown. -/
theorem limitStep_reports_corner :
    let box := (cornerBox.limitStep #v[0, 0, 0] #v[1, 1, 1] #v[4, 1, 1] 0.1 (some 8)).1
    let limited := box.limitStep #v[1, 0, 0] #v[1, 1, 1] #v[4, 2, 3] 0.1 (some 8)
    Box.Reports #v[-1, -1, -1] #v[1, 1, infinity] #v[1, 0, 0] #v[1, 1, 1] #v[4, 2, 3] (some 8)
        limited.1 limited.2 ∧
      limited.2.active = 1 ∧ limited.2.limiting = some 1 := by
  refine ⟨limitStep_reports ?_ ?_ ?_ ?_ ?_ (Box.blank_limitStep ..) _, by decide +kernel,
    by decide +kernel⟩
  · decide +kernel
  · unfold Within
    decide +kernel
  · decide +kernel
  · decide +kernel
  · rintro c ⟨⟩
    decide +kernel

end AlgebraicLoop
