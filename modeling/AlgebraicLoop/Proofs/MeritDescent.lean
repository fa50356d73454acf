import AlgebraicLoop.Proofs.InsideBounds
import Mathlib.Data.List.Chain
import Mathlib.Data.List.Forall2

/-!
# Merits that come down

Without rounding, the merit of the points that an attempt by the damped method accepts never rises.
A search accepts no greater merit than the one it starts from. Between two searches the residual
scales may be tightened, and a tightened scale is no greater than before, so the merit of the point
the attempt stands at is not either.

* `AtMost`, `Under`: an order in which nothing is more than a NaN;
* `merit_under`: the merit with lesser scales;
* `tightenedNorm_scaled`: what tightening does to the scales;
* `Walk.Descends`: what is known of the merits at a position of an attempt;
* `runDamped_descends`: the attempt.
-/

namespace AlgebraicLoop
set_option autoImplicit false

open Exact

/-! ## Storing scales -/

section
variable {α σ : Type} [Scalar α] {n : Nat} {P : Problem α σ n} {s t : Session α σ n}
  {o : Options α} {raw : Vector α n}

theorem storeScale_ok {i : Fin n} (h : storeScale o raw i s = .ok () t) :
    t.work.residualScale =
      s.work.residualScale.set i (clampScale raw[i] o.leastScale o.greatestScale).1 i.isLt := by
  unfold storeScale at h
  dsimp only at h
  split at h
  · cases h
    rfl
  · cases h
    rfl

theorem forM_storeScale_ok {l : List (Fin n)} (h : l.forM (storeScale o raw) s = .ok () t)
    (i : Fin n) :
    t.work.residualScale[i] =
      if i ∈ l then (clampScale raw[i] o.leastScale o.greatestScale).1
      else s.work.residualScale[i] := by
  induction l generalizing s with
  | nil =>
    cases h
    rfl
  | cons j l ih =>
    obtain ⟨_, u, hu, h⟩ := bind_eq_ok.1 h
    rw [ih h, storeScale_ok hu]
    by_cases hl : i ∈ l
    · simp [hl]
    · by_cases hij : i = j
      · subst hij
        simp [hl]
      · have hne : j.val ≠ i.val := fun heq => hij (Fin.ext heq.symm)
        simp [hl, hij, Vector.getElem_set_ne _ _ hne]

theorem tightenResidualScales_ok {x : Vector α n} (h : tightenResidualScales P x s = .ok () t)
    (i : Fin n) :
    let r := (rowScales s.work.jacobian s.nominal x P.options.tolerance)[i]
    t.work.residualScale[i] =
      (clampScale (if isNaN r then r else smaller r s.work.residualScale[i]) P.options.leastScale
        P.options.greatestScale).1 := by
  unfold tightenResidualScales storeScales at h
  rw [get_bind_apply] at h
  rw [forM_storeScale_ok h i, if_pos (List.mem_finRange i)]
  simp

end

/-! ## An order with a NaN on top -/

section
variable {K : Type} [Field K] [LinearOrder K] [SquareRoot K] {x y z u v : Exact K}

/-- The first number is no more than the second one; nothing is more than a NaN. -/
def AtMost (x y : Exact K) : Prop := x ≤ y ∨ y = nan

theorem AtMost.trans (hxy : AtMost x y) (hyz : AtMost y z) : AtMost x z := by
  obtain hyz | hyz := hyz
  · obtain hxy | hxy := hxy
    · exact .inl (exact_le_trans hxy hyz)
    · exact absurd hxy (ne_nan_of_le hyz).1
  · exact .inr hyz

theorem AtMost.not_lt (h : AtMost x y) : ¬ y < x := by
  intro hlt
  obtain h | rfl := h
  · exact hlt.2 h
  · exact hlt.1

/-- The numbers are not negative, and the first one is at most the second one. -/
def Under (x y : Exact K) : Prop := (0 ≤ x ∧ x ≤ y) ∨ y = nan

theorem Under.atMost (h : Under x y) : AtMost x y := h.imp_left And.right

end

section
variable {K : Type} [Field K] [LinearOrder K] [IsStrictOrderedRing K] [SquareRoot K]
  {x y u v : Exact K} {n : Nat}

omit [IsStrictOrderedRing K] in
theorem nonneg_cases (h : 0 ≤ x) : (∃ a : K, x = finite a ∧ 0 ≤ a) ∨ x = posInfinity := by
  rw [zero_eq] at h
  cases x with
  | finite a => exact .inl ⟨a, rfl, h⟩
  | posInfinity => exact .inr rfl
  | negInfinity => exact h.elim
  | nan => exact h.elim

omit [IsStrictOrderedRing K] in
theorem le_posInfinity (h : 0 ≤ x) : x ≤ posInfinity := by
  obtain ⟨a, rfl, _⟩ | rfl := nonneg_cases h
  · exact trivial
  · exact trivial

omit [IsStrictOrderedRing K] in
theorem add_posInfinity (h : 0 ≤ x) :
    x + posInfinity = posInfinity ∧ posInfinity + x = posInfinity := by
  obtain ⟨a, rfl, _⟩ | rfl := nonneg_cases h
  · exact ⟨rfl, rfl⟩
  · exact ⟨rfl, rfl⟩

theorem exact_add_nonneg (hx : 0 ≤ x) (hu : 0 ≤ u) : 0 ≤ x + u := by
  obtain ⟨a, rfl, ha⟩ | rfl := nonneg_cases hx
  · obtain ⟨c, rfl, hc⟩ | rfl := nonneg_cases hu
    · rw [zero_eq]
      exact add_nonneg ha hc
    · exact hu
  · rw [(add_posInfinity hu).2]
    exact hx

/-- Sums of numbers that are under one another. -/
theorem under_add (hxy : Under x y) (huv : Under u v) : Under (x + u) (y + v) := by
  obtain ⟨hx, hxy⟩ | rfl := hxy
  · obtain ⟨hu, huv⟩ | rfl := huv
    · have hsum : 0 ≤ x + u := exact_add_nonneg hx hu
      have hy : 0 ≤ y := exact_le_trans hx hxy
      have hv : 0 ≤ v := exact_le_trans hu huv
      refine .inl ⟨hsum, ?_⟩
      obtain ⟨b, rfl, _⟩ | rfl := nonneg_cases hy
      · obtain ⟨d, rfl, _⟩ | rfl := nonneg_cases hv
        · obtain ⟨a, rfl, _⟩ | rfl := nonneg_cases hx
          · obtain ⟨c, rfl, _⟩ | rfl := nonneg_cases hu
            · exact add_le_add (show a ≤ b from hxy) (show c ≤ d from huv)
            · exact huv.elim
          · exact hxy.elim
        · rw [(add_posInfinity hy).1]
          exact le_posInfinity hsum
      · rw [(add_posInfinity hv).2]
        exact le_posInfinity hsum
    · exact .inr (add_nan y).1
  · exact .inr (add_nan v).2

theorem under_total {a b : Vector (Exact K) n} (h : ∀ i : Fin n, Under a[i] b[i]) :
    Under (total a) (total b) := by
  have hlists : List.Forall₂ Under a.toList b.toList := by
    refine List.forall₂_iff_get.2 ⟨by simp, fun i hi _ => ?_⟩
    have hi : i < n := by simpa using hi
    simpa using h ⟨i, hi⟩
  have hzero : Under (0 : Exact K) 0 := .inl ⟨exact_le_self nofun, exact_le_self nofun⟩
  unfold total
  rw [← Vector.foldl_toList, ← Vector.foldl_toList]
  exact List.rel_foldl (P := Under) (R := Under) (fun _ _ hxy _ _ huv => under_add hxy huv) hzero
    hlists

theorem under_mul {c : K} (hc : 0 < c) (h : Under x y) : Under (finite c * x) (finite c * y) := by
  obtain ⟨hx, hxy⟩ | rfl := h
  · refine .inl ⟨finite_mul_nonneg hc hx, ?_⟩
    obtain ⟨b, rfl, _⟩ | rfl := nonneg_cases (exact_le_trans hx hxy)
    · obtain ⟨a, rfl, _⟩ | rfl := nonneg_cases hx
      · exact mul_le_mul_of_nonneg_left (show a ≤ b from hxy) hc.le
      · exact hxy.elim
    · rw [finite_mul_posInfinity hc]
      exact le_posInfinity (finite_mul_nonneg hc hx)
  · exact .inr (mul_nan _)

omit [IsStrictOrderedRing K] in
/-- The square of an infinite product; zero times infinity is a NaN. -/
theorem square_mul_posInfinity (f : K) :
    square (finite f * posInfinity) = if f = 0 then nan else posInfinity := by
  change mul (ofSign (SignType.sign f * 1)) (ofSign (SignType.sign f * 1)) = _
  obtain hf | rfl | hf := lt_trichotomy f 0
  · rw [sign_neg hf, if_neg hf.ne]
    rfl
  · rw [sign_zero, if_pos rfl]
    rfl
  · rw [sign_pos hf, if_neg hf.ne']
    rfl

/-- The square of a scaled number comes down with its scale. -/
theorem under_square (f : K) (hx : 0 ≤ x) (hxy : x ≤ y) :
    Under (square (finite f * x)) (square (finite f * y)) := by
  obtain ⟨b, rfl, _⟩ | rfl := nonneg_cases (exact_le_trans hx hxy)
  · obtain ⟨a, rfl, ha⟩ | rfl := nonneg_cases hx
    · have hab : a ≤ b := hxy
      refine .inl ⟨?_, ?_⟩
      · rw [zero_eq]
        exact mul_self_nonneg (f * a)
      · change f * a * (f * a) ≤ f * b * (f * b)
        rw [mul_mul_mul_comm, mul_mul_mul_comm f b]
        exact mul_le_mul_of_nonneg_left (mul_self_le_mul_self ha hab) (mul_self_nonneg f)
    · exact hxy.elim
  · rw [square_mul_posInfinity f]
    split
    · exact .inr rfl
    · next hf =>
      have hsquare : 0 ≤ square (finite f * x) := by
        obtain ⟨a, rfl, _⟩ | rfl := nonneg_cases hx
        · rw [zero_eq]
          exact mul_self_nonneg (f * a)
        · rw [square_mul_posInfinity f, if_neg hf]
          exact hx
      exact .inl ⟨hsquare, le_posInfinity hsquare⟩

/-- With lesser scales the merit of a finite residual is no greater. -/
theorem merit_under {f w w' : Vector (Exact K) n} (hf : allFinite f = true)
    (hw : ∀ i : Fin n, 0 ≤ w'[i] ∧ w'[i] ≤ w[i]) : Under (merit f w') (merit f w) := by
  unfold merit
  rw [half_eq]
  refine under_mul (by norm_num) (under_total fun i => ?_)
  obtain ⟨y, hy⟩ := isFinite_iff.1 (Vector.all_eq_true.1 hf i i.isLt)
  simp only [getElem_position, Vector.getElem_zipWith, hy]
  exact under_square y (hw i).1 (hw i).2

/-! ## Accepted points -/

omit [IsStrictOrderedRing K] in
/-- The slope that a decrease is asked from is a finite number, and not a positive one. -/
theorem downhillSlope_eq (J : Mat (Exact K) n n) (f scale step : Vector (Exact K) n) :
    ∃ r : K, downhillSlope J f scale step = finite r ∧ r ≤ 0 := by
  unfold downhillSlope
  dsimp only
  split
  · exact ⟨0, zero_eq, le_refl 0⟩
  · next h =>
    obtain ⟨hup, hfinite⟩ := not_or.1 h
    obtain ⟨r, hr⟩ := isFinite_iff.1 (by simpa using hfinite)
    rw [hr] at hup ⊢
    rw [zero_eq] at hup
    exact ⟨r, rfl, le_of_not_ge hup⟩

/-- A merit that has come down enough is no greater. -/
theorem le_of_decreasesEnough {start now damping : Exact K} {r : K} (hr : r ≤ 0)
    (hpart : IsPart damping) (h : decreasesEnough start now (finite r) damping = true) :
    now ≤ start := by
  obtain ⟨d, rfl, hd, _⟩ := hpart
  have hle : now ≤ start + sufficientDecrease * finite d * finite r := of_decide_eq_true h
  have hdecrease : (sufficientDecrease : Exact K) * finite d * finite r =
      finite (1 / 10 ^ 4 * d * r) := by
    unfold sufficientDecrease
    rw [scientific_eq, finite_mul, finite_mul]
    norm_num
  rw [hdecrease] at hle
  refine exact_le_trans hle ?_
  have hdown : 1 / 10 ^ 4 * d * r ≤ 0 := mul_nonpos_of_nonneg_of_nonpos (by positivity) hr
  cases start with
  | finite a => exact show a + 1 / 10 ^ 4 * d * r ≤ a by linarith
  | posInfinity => exact trivial
  | negInfinity => exact trivial
  | nan => exact absurd (add_nan _).2 (ne_nan_of_le hle).2

/-- A search accepts no greater merit than the one it starts from. -/
theorem Accepted.Lowered.merit_le {x step scale f : Vector (Exact K) n} {J : Mat (Exact K) n n}
    {a : Accepted (Exact K) n}
    (h : a.Lowered x step scale (merit f scale) (downhillSlope J f scale step)) :
    merit a.f scale ≤ merit f scale := by
  obtain ⟨r, hslope, hr⟩ := downhillSlope_eq J f scale step
  have hdecrease := h.decrease
  rw [hslope] at hdecrease
  exact le_of_decreasesEnough hr h.part hdecrease

/-! ## Scales that are tightened -/

/-- The raw scale of an equation is a number, whatever is in its row. -/
theorem rowScales_ne_nan (J : Mat (Exact K) n n) (nominal x : Vector (Exact K) n)
    (tolerance : Exact K) (i : Fin n) : (rowScales J nominal x tolerance)[i] ≠ nan := by
  unfold rowScales
  dsimp only
  rw [getElem_position, Vector.getElem_map]
  generalize hnorm : maxNorm (J[i.val].zipWith (fun a w => abs a * w)
    (columnWeights nominal x tolerance)) = norm
  obtain ⟨a, rfl, _⟩ | rfl := nonneg_cases (hnorm ▸ LawfulScalar.zero_le_maxNorm _)
  · rw [one_eq]
    by_cases h : a = 0
    · change (if a = 0 then ofSign (SignType.sign 1) else finite (1 / a)) ≠ nan
      rw [if_pos h, sign_one]
      intro hnan
      cases hnan
    · rw [finite_div 1 h]
      exact finite_ne_nan _
  · intro hnan
    cases hnan

/-- A scale of the range that is lowered and clamped stays in the range and is not raised. -/
theorem clampScale_smaller {least greatest r old : Exact K} (hr : r ≠ nan)
    (hold : Within least greatest old) :
    Within least greatest (clampScale (smaller r old) least greatest).1 ∧
      (clampScale (smaller r old) least greatest).1 ≤ old := by
  have hreal : old ≠ nan := hold.ne_nan
  have hsmaller : smaller r old ≠ nan ∧ smaller r old ≤ old := by
    unfold smaller
    split
    · next h =>
      obtain h | h := h
      · exact absurd (isNaN_iff.1 h) hreal
      · exact ⟨hr, h.1⟩
    · exact ⟨hreal, exact_le_self hreal⟩
  obtain ⟨hnum, hle⟩ := hsmaller
  have hleast : least ≠ nan := (ne_nan_of_le hold.1).1
  have hgreatest : greatest ≠ nan := (ne_nan_of_le hold.2).2
  unfold clampScale
  rw [if_neg fun h => hnum (isNaN_iff.1 h)]
  split
  · exact ⟨⟨exact_le_self hleast, exact_le_trans hold.1 hold.2⟩, hold.1⟩
  · next hbelow =>
    split
    · next habove => exact absurd (exact_le_trans hle hold.2) habove.2
    · exact ⟨⟨exact_le_of_not_lt hnum hleast hbelow, exact_le_trans hle hold.2⟩, hle⟩

variable {σ : Type} {P : Problem (Exact K) σ n} {s t w : Session (Exact K) σ n}

/-- The residual scales lie in the range that the options allow. -/
def Session.Scaled (P : Problem (Exact K) σ n) (s : Session (Exact K) σ n) : Prop :=
  ∀ i : Fin n, Within P.options.leastScale P.options.greatestScale s.work.residualScale[i]

/-- Residual scales in the range, none of them greater than before. -/
structure Tightened (P : Problem (Exact K) σ n) (s t : Session (Exact K) σ n) : Prop where
  scaled : t.Scaled P
  lower : ∀ i : Fin n, t.work.residualScale[i] ≤ s.work.residualScale[i]

theorem Tightened.of_eq (hs : s.Scaled P) (h : t.work.residualScale = s.work.residualScale) :
    Tightened P s t := by
  refine ⟨fun i => ?_, fun i => ?_⟩
  · rw [h]
    exact hs i
  · rw [h]
    exact exact_le_self (hs i).ne_nan

theorem Tightened.of_footing (hs : s.Scaled P) (h : Course (Session.footing P) s t) :
    Tightened P s t := .of_eq hs (congrArg Footing.residualScale h.keeps)

omit [IsStrictOrderedRing K] in
theorem Tightened.trans (hst : Tightened P s t) (htw : Tightened P t w) : Tightened P s w :=
  ⟨htw.scaled, fun i => exact_le_trans (htw.lower i) (hst.lower i)⟩

theorem tightenedNorm_scaled (hs : s.Scaled P) {tighten fresh : Bool} {iteration : Nat}
    {x f : Vector (Exact K) n} {norm norm' : Exact K}
    (h : tightenedNorm P tighten iteration fresh x f norm s = .ok norm' t) : Tightened P s t := by
  unfold tightenedNorm at h
  split at h
  · obtain ⟨_, u, hu, h⟩ := bind_eq_ok.1 h
    cases h
    have entry : ∀ i : Fin n, Within P.options.leastScale P.options.greatestScale
        t.work.residualScale[i] ∧ t.work.residualScale[i] ≤ s.work.residualScale[i] := by
      intro i
      have hr := rowScales_ne_nan s.work.jacobian s.nominal x P.options.tolerance i
      have hreal : ¬ isNaN (rowScales s.work.jacobian s.nominal x P.options.tolerance)[i] = true :=
        fun hnan => hr (isNaN_iff.1 hnan)
      rw [tightenResidualScales_ok hu i, if_neg hreal]
      exact clampScale_smaller hr (hs i)
    exact ⟨fun i => (entry i).1, fun i => (entry i).2⟩
  · cases h
    exact .of_eq hs rfl

/-- On the way to a step the residual scales may come down. -/
theorem heading_scaled (hs : s.Scaled P) {tol : Tolerances (Exact K)} {descent tighten : Bool}
    {iteration : Nat} {f : Vector (Exact K) n} {norm : Exact K} {record : RunRecord (Exact K)}
    {h : Heading (Exact K) n}
    (hrun : heading P tol descent tighten iteration f norm record s = .ok (.inr h) t) :
    Tightened P s t := by
  obtain ⟨u, v, w, step, kind, hu, hv, hw, ht⟩ := heading_eq_ok hrun
  have hsu := Tightened.of_footing hs ((course_prepareJacobian P _ _ _).ok hu)
  have huv := tightenedNorm_scaled hsu.scaled hv
  have hvw := Tightened.of_footing huv.scaled ((course_computeStep P _ _).ok hw)
  have hwt := Tightened.of_footing hvw.scaled ((course_searchDirection P _ _ _ _ _).ok ht)
  exact ((hsu.trans huv).trans hvw).trans hwt

/-! ## The merits of an attempt -/

section
variable {tol : Tolerances (Exact K)} {descent : Bool} {k : Nat}
  {path : List (Waypoint (Exact K) n)} {progress : Progress (Exact K) n} {f : Vector (Exact K) n}
  {norm : Exact K} {record : RunRecord (Exact K)} {u v : Session (Exact K) σ n}
  {h : Heading (Exact K) n} {p : Waypoint (Exact K) n}

/-- A search comes down from one accepted point to the next, in the scales it is made with, and in
these the earlier point has at most the merit it was accepted with. -/
structure Waypoint.Descends (later earlier : Waypoint (Exact K) n) : Prop where
  searched : later.merit ≤ AlgebraicLoop.merit earlier.f later.scale
  rescaled : AtMost (AlgebraicLoop.merit earlier.f later.scale) earlier.merit

omit [IsStrictOrderedRing K] in
theorem Waypoint.Descends.atMost {q : Waypoint (Exact K) n} (h : p.Descends q) :
    AtMost p.merit q.merit := AtMost.trans (.inl h.searched) h.rescaled

/-- A search that begins with no greater scales than those of the last point descends from it. -/
theorem Heading.search_descends {accepted : Accepted (Exact K) n}
    (hleast : 0 < P.options.leastScale) (hv : v.Scaled P)
    (hle : ∀ i : Fin n, v.work.residualScale[i] ≤ p.scale[i]) (hf : allFinite p.f = true)
    {x : Vector (Exact K) n} (hsearch : h.search P tol x p.f v = .ok (.ok accepted) w) :
    Waypoint.Descends ⟨accepted.x, accepted.f, w.work.residualScale⟩ p := by
  have hscale : w.work.residualScale = v.work.residualScale :=
    congrArg Footing.residualScale (h.course_search hsearch).keeps
  have hlowered := ((lineSearch_after (h.facing v)).ok hsearch).2 accepted rfl
  have hunder : Under (merit p.f v.work.residualScale) p.merit :=
    merit_under hf fun i => ⟨exact_le_trans hleast.1 (hv i).1, hle i⟩
  rw [hscale]
  exact ⟨hlowered.merit_le, hunder.atMost⟩

/-- What is known of the merits at a position of an attempt: they have come down from point to point,
and the scales are no greater now than when the last point was accepted. -/
structure Walk.Descends (P : Problem (Exact K) σ n) (path : List (Waypoint (Exact K) n))
    (progress : Progress (Exact K) n) (u : Session (Exact K) σ n) : Prop where
  chain : path.IsChain Waypoint.Descends
  scales : ∀ p ∈ path, ∀ i : Fin n,
    Within P.options.leastScale P.options.greatestScale p.scale[i]
  now : ∀ f norm record, progress = .onward f norm record → u.Scaled P ∧
    ∃ p, path.head? = some p ∧ p.f = f ∧ ∀ i : Fin n, u.work.residualScale[i] ≤ p.scale[i]

namespace Walk.Descends

omit [IsStrictOrderedRing K] in
theorem ended (hwalk : Walk.Descends P path progress u) {attempt : Attempt (Exact K)}
    (t : Session (Exact K) σ n) : Walk.Descends P path (.over attempt) t :=
  ⟨hwalk.chain, hwalk.scales, fun _ _ _ hp => nomatch hp⟩

/-- An attempt begins with a single point. -/
theorem start (hs : s.Scaled P) (hf : evaluate P s.x s.cleared = .ok (.ok f) t)
    (hprogress : ∀ g norm record, progress = .onward g norm record → g = f) :
    Walk.Descends P [⟨s.x, f, t.work.residualScale⟩] progress (t.normed f) := by
  have hscaled : Tightened P s.cleared t :=
    .of_footing (s := s.cleared) hs ((course_evaluate P _).ok hf)
  refine ⟨.singleton _, fun p hp => ?_, fun g norm record hp => ?_⟩
  · obtain rfl := List.mem_singleton.1 hp
    exact hscaled.scaled
  · exact ⟨hscaled.scaled, _, rfl, (hprogress g norm record hp).symm, fun i =>
      exact_le_self (hscaled.scaled i).ne_nan⟩

omit [IsStrictOrderedRing K] in
/-- Of any two points the later one has at most the merit of the earlier one. -/
theorem merits (h : Walk.Descends P path progress u) :
    path.Pairwise fun later earlier => AtMost later.merit earlier.merit := by
  let R (later earlier : Waypoint (Exact K) n) : Prop := AtMost later.merit earlier.merit
  have : Trans R R R := ⟨AtMost.trans⟩
  exact (h.chain.imp fun _ _ => Waypoint.Descends.atMost : path.IsChain R).pairwise

omit [IsStrictOrderedRing K] in
/-- With finite scales the merits are finite numbers. -/
theorem merit_finite (h : Walk.Descends P path progress u) (hleast : 0 < P.options.leastScale)
    (hgreatest : isFinite P.options.greatestScale = true) (hp : p ∈ path)
    (hf : allFinite p.f = true) : isFinite p.merit = true := by
  obtain ⟨g, hg⟩ := isFinite_iff.1 hgreatest
  refine isFinite_merit fun i => ⟨Vector.all_eq_true.1 hf i i.isLt, ?_⟩
  obtain ⟨hlow, hhigh⟩ := h.scales p hp i
  obtain ⟨a, ha, _⟩ | ha := nonneg_cases (exact_le_trans hleast.1 hlow)
  · rw [ha]
    rfl
  · rw [ha, hg] at hhigh
    exact hhigh.elim

end Walk.Descends

theorem Walk.descends (hwalk : Walk P tol descent s k path progress u)
    (hleast : 0 < P.options.leastScale) (hs : s.Scaled P) :
    Walk.Descends P path progress u := by
  induction hwalk with
  | undefined _ => exact ⟨.nil, fun _ hp => (List.not_mem_nil hp).elim, fun _ _ _ hp => nomatch hp⟩
  | solved hf _ => exact .start hs hf fun _ _ _ hp => nomatch hp
  | start hf _ =>
    refine .start hs hf fun _ _ _ hp => ?_
    cases hp
    rfl
  | exhausted _ _ ih => exact ih.ended _
  | gaveUp _ _ _ ih => exact ih.ended _
  | @stays k path f norm record u v w t h _ progress _ _ hheading hsearch hmove ih =>
    obtain ⟨hu, p, hhead, hf, hle⟩ := ih.now f norm record rfl
    have huv := heading_scaled hu hheading
    have huw := huv.trans (.of_footing huv.scaled (h.course_search hsearch))
    refine ⟨ih.chain, ih.scales, fun g norm' record' hp => ?_⟩
    obtain ⟨_, ⟨rfl, _, rfl⟩ | ⟨⟨_, rfl⟩, _⟩⟩ := searchAndMove_stays hsearch hmove
    · cases hp
      exact ⟨huw.scaled, p, hhead, hf, fun i => exact_le_trans (huw.lower i) (hle i)⟩
    · cases hp
  | @moves k path f norm record u v w t h accepted progress hwalk _ hheading hsearch hmove ih =>
    obtain ⟨hu, p, hhead, rfl, hle⟩ := ih.now f norm record rfl
    have huv := heading_scaled hu hheading
    have hvw := Tightened.of_footing huv.scaled (h.course_search hsearch)
    have hdescends : Waypoint.Descends ⟨accepted.x, accepted.f, w.work.residualScale⟩ p :=
      Heading.search_descends hleast huv.scaled (fun i => exact_le_trans (huv.lower i) (hle i))
        hwalk.evaluated.2 hsearch
    refine ⟨List.isChain_cons.2 ⟨fun q hq => ?_, ih.chain⟩, fun q hq => ?_,
      fun g norm' record' hp => ?_⟩
    · obtain rfl := Option.some.inj (hhead.symm.trans hq)
      exact hdescends
    · obtain rfl | hq := List.mem_cons.1 hq
      · exact hvw.scaled
      · exact ih.scales q hq
    · obtain ⟨rfl, _, hnext⟩ := searchAndMove_moves hsearch hmove
      exact ⟨hvw.scaled, _, rfl, (hnext g norm' record' hp).1.symm, fun i =>
        exact_le_self (hvw.scaled i).ne_nan⟩

omit [IsStrictOrderedRing K] in
/-- The first point of an attempt is the one it starts at. -/
theorem Walk.oldest (hwalk : Walk P tol descent s k path progress u)
    (hp : path.getLast? = some p) : p.x = s.x := by
  induction hwalk with
  | undefined _ => cases hp
  | solved _ _ | start _ _ =>
    cases hp
    rfl
  | exhausted _ _ ih | gaveUp _ _ _ ih | stays _ _ _ _ _ ih => exact ih hp
  | moves hwalk _ _ _ _ ih =>
    obtain ⟨scale, hhead⟩ := hwalk.known.last _ _ _ rfl
    obtain ⟨rest, rfl⟩ := List.head?_eq_some_iff.1 hhead
    exact ih (by rwa [List.getLast?_cons_cons] at hp)

/-- Without rounding, an attempt by the damped method that starts with scales in their range has
three invariants. If it enforces the bounds and starts inside of them, every point it searches among
and every point it accepts lies inside. The merits of the points it accepts, each with the scales in
force then, never rise: neither a search nor a tightening of the scales raises them. And whatever it
comes to, it leaves the session at the last point that it accepted. -/
theorem runDamped_descends (tol : Tolerances (Exact K)) (descent : Bool)
    (hleast : 0 < P.options.leastScale)
    (hfactor : ∀ c, P.options.stepLimitFactor = some c → 0 < c) (hscaled : s.Scaled P) :
    (P.options.enforceBounds = true → s.Contained P →
      (∀ y, Tries P tol descent s y → s.Encloses y) ∧
      ∀ k path progress u, Walk P tol descent s k path progress u →
        ∀ p ∈ path, s.Encloses p.x) ∧
    (∀ k path progress u, Walk P tol descent s k path progress u →
      (path.IsChain fun later earlier => later.merit ≤ merit earlier.f later.scale ∧
        ¬ earlier.merit < merit earlier.f later.scale) ∧
      (path.Pairwise fun later earlier => ¬ earlier.merit < later.merit) ∧
      (isFinite P.options.greatestScale = true →
        path.Pairwise fun later earlier => later.merit ≤ earlier.merit)) ∧
    ∀ attempt t, runDamped P tol descent s = .ok attempt t →
      ∃ k path, Walk P tol descent s k path (.over attempt) t ∧
        (∀ p, path.getLast? = some p → p.x = s.x) ∧
        t.x = (path.head?.map Waypoint.x).getD s.x := by
  refine ⟨fun henforce hs => ?_, fun k path progress u hwalk => ?_, fun attempt t hrun => ?_⟩
  · have hP : Confining P.options := ⟨henforce, hfactor⟩
    exact ⟨fun y hy => hy.within hP hs, fun _ _ _ _ hwalk => hwalk.within hP hs⟩
  · have hdescends := hwalk.descends hleast hscaled
    refine ⟨hdescends.chain.imp fun _ _ h => ⟨h.searched, h.rescaled.not_lt⟩,
      hdescends.merits.imp AtMost.not_lt, fun hgreatest => ?_⟩
    refine hdescends.merits.imp_of_mem fun _ hearlier hle => hle.resolve_right fun hnan => ?_
    have hfinite := hdescends.merit_finite hleast hgreatest hearlier
      (hwalk.known.evaluated _ hearlier).2
    rw [hnan] at hfinite
    cases hfinite
  · obtain ⟨k, path, hwalk⟩ := runDamped_eq_ok.1 hrun
    exact ⟨k, path, hwalk, fun _ => hwalk.oldest, hwalk.known.at_point⟩

end

end

/-! ## An attempt on rational numbers -/

/-- Two unknowns with a given sum and product. The scales are tightened, and the model knows its
derivatives. -/
def sumProductProblem : Problem (Exact ℚ) Unit 2 where
  label := "loop"
  options :=
    { (Options.standard : Options (Exact ℚ)) with
      residualScaling := .aggressive
      jacobianSource := .analytic
      maxIterations := 3 }
  model :=
    { Model.ofFunction (onTwo fun x y : Exact ℚ => .ok (pair (x * y - 2) (x + y - 3))) with
      jacobian := some fun x s =>
        .whole (.ok (onTwo (fun x y => pair (pair y x) (pair 1 1)) x), s) }
  auxiliaryCount := 0
  variability := .continuous

/-- A first attempt that starts at the edge of the bounds. -/
def edgeSession : Session (Exact ℚ) Unit 2 :=
  { Session.fresh 2 () with
    x := #v[4, 3]
    lower := #v[1.5, 0]
    upper := #v[4, 4]
    phase := .iterating
    work :=
      { Workspace.fresh 2 with
        box := Box.ofBounds #v[1.5, 0] #v[4, 4] (some 10)
        firstAttempt := true
        ready := true } }

theorem edgeSession_contained : edgeSession.Contained sumProductProblem where
  box := rfl
  inside := by
    unfold Session.Inside Within
    decide +kernel

set_option maxRecDepth 100000 in
/-- The attempt moves, and some scale is tightened on the way. -/
theorem runDamped_descends_edge :
    ∃ attempt t k path,
      runDamped sumProductProblem ⟨roundoff, 1e-10⟩ false edgeSession = .ok attempt t ∧
      Walk sumProductProblem ⟨roundoff, 1e-10⟩ false edgeSession k path (.over attempt) t ∧
      t.x ≠ edgeSession.x ∧
      getElem t.work.residualScale 0 Nat.zero_lt_two <
        getElem edgeSession.work.residualScale 0 Nat.zero_lt_two ∧
      t.x = (path.head?.map Waypoint.x).getD edgeSession.x ∧
      (path.Pairwise fun later earlier => later.merit ≤ earlier.merit) ∧
      ∀ p ∈ path, edgeSession.Encloses p.x := by
  have hcomes : comesTo (runDamped sumProductProblem ⟨roundoff, 1e-10⟩ false) edgeSession
      (fun _ t => decide (t.x ≠ edgeSession.x ∧
        t.work.residualScale[0] < edgeSession.work.residualScale[0])) = true := by
    decide +kernel
  obtain ⟨attempt, t, hrun, hmoved⟩ := exists_of_comesTo hcomes
  obtain ⟨hmoved, htight⟩ := of_decide_eq_true hmoved
  have hleast : 0 < sumProductProblem.options.leastScale := by decide +kernel
  have hfactor : ∀ c, sumProductProblem.options.stepLimitFactor = some c → 0 < c := by
    intro c hc
    cases hc
    decide +kernel
  have hscaled : edgeSession.Scaled sumProductProblem := by
    unfold Session.Scaled Within
    decide +kernel
  obtain ⟨hinside, hmerits, hends⟩ :=
    runDamped_descends ⟨roundoff, 1e-10⟩ false hleast hfactor hscaled
  obtain ⟨k, path, hwalk, _, hx⟩ := hends attempt t hrun
  exact ⟨attempt, t, k, path, hrun, hwalk, hmoved, htight, hx,
    (hmerits k path _ t hwalk).2.2 rfl,
    (hinside rfl edgeSession_contained).2 k path _ t hwalk⟩

end AlgebraicLoop
