import AlgebraicLoop.Proofs.SearchInBox
import AlgebraicLoop.Proofs.Turns

/-!
# Attempts inside the bounds

Without rounding, an attempt by the damped method that begins inside the bounds and enforces them
stays inside of them.

* `Session.Framed`, `Session.Held`: blocks whose bounds are in order, and points inside of them;
* `searchDirection_fits`: the step that is searched along;
* `Tries`: the points that an attempt searches among;
* `Walk.contained`, `Tries.within`, `runDamped_held`: the positions of an attempt, those points, and
  its end.
-/

namespace AlgebraicLoop
set_option autoImplicit false

open Exact

/-- Options that keep the steps of a solve inside the bounds. -/
structure Confining {α : Type} [Scalar α] (o : Options α) : Prop where
  enforce : o.enforceBounds = true
  factor : ∀ c, o.stepLimitFactor = some c → 0 < c

section
variable {K : Type} [Field K] [LinearOrder K] [SquareRoot K] {σ : Type} {n : Nat}
  {P : Problem (Exact K) σ n} {s t : Session (Exact K) σ n}

/-- A block whose bounds are in order. Its box, once it has been set up, is made of them, and its
nominal values are numbers. No outer step has been accepted. -/
structure Session.Framed (P : Problem (Exact K) σ n) (s : Session (Exact K) σ n) : Prop where
  ordered : ∀ i : Fin n, s.lower[i] ≤ s.upper[i]
  nominal : ∀ i : Fin n, s.nominal[i] ≠ nan
  box : s.work.ready = true →
    s.work.box.blank = (Box.ofBounds s.lower s.upper P.options.stepLimitFactor).blank
  accepted : s.work.accepted = none

/-- The point of the session lies inside the bounds. -/
def Session.Inside (s : Session (Exact K) σ n) : Prop :=
  ∀ i : Fin n, Within s.lower[i] s.upper[i] s.x[i]

/-- A block that has been set up, at a point inside its bounds. -/
structure Session.Held (P : Problem (Exact K) σ n) (s : Session (Exact K) σ n) : Prop where
  framed : s.Framed P
  ready : s.work.ready = true
  inside : s.Inside

/-- The bounds of the session admit the point. -/
def Session.Encloses (s : Session (Exact K) σ n) (y : Vector (Exact K) n) : Prop :=
  ∀ i : Fin n, Within s.lower[i] s.upper[i] y[i]

/-- The box of the session is made of its bounds, and the point lies inside. -/
structure Session.Contained (P : Problem (Exact K) σ n) (s : Session (Exact K) σ n) : Prop where
  box : s.work.box.blank = (Box.ofBounds s.lower s.upper P.options.stepLimitFactor).blank
  inside : s.Inside

/-- The step leads from the point of the session to a point inside the bounds. -/
def Session.Admits (s : Session (Exact K) σ n) (step : Vector (Exact K) n) : Prop :=
  ∀ i : Fin n, Fits s.lower[i] s.upper[i] s.x[i] step[i]

theorem Session.Framed.keep (h : s.Framed P) (hst : t.setting P = s.setting P) : t.Framed P := by
  have hlower : t.lower = s.lower := congrArg Setting.lower hst
  have hupper : t.upper = s.upper := congrArg Setting.upper hst
  have hnominal : t.nominal = s.nominal := congrArg Setting.nominal hst
  have hbox : t.work.box.blank = s.work.box.blank := congrArg Setting.box hst
  have hready : t.work.ready = s.work.ready := congrArg Setting.ready hst
  have haccepted : t.work.accepted = s.work.accepted := congrArg Setting.accepted hst
  exact ⟨by rw [hlower, hupper]; exact h.ordered, by rw [hnominal]; exact h.nominal,
    by rw [hlower, hupper, hbox, hready]; exact h.box, haccepted.trans h.accepted⟩

theorem Session.Held.move (h : s.Held P) (hst : t.setting P = s.setting P) (hinside : t.Inside) :
    t.Held P :=
  ⟨h.framed.keep hst, (congrArg Setting.ready hst).trans h.ready, hinside⟩

theorem Session.Inside.keep (h : s.Inside) (hst : t.spot P = s.spot P) : t.Inside := by
  have hlower : t.lower = s.lower := congrArg (fun p => p.lower) hst
  have hupper : t.upper = s.upper := congrArg (fun p => p.upper) hst
  have hx : t.x = s.x := congrArg Spot.x hst
  unfold Session.Inside
  rw [hlower, hupper, hx]
  exact h

theorem Session.Held.keep (h : s.Held P) (hst : t.spot P = s.spot P) : t.Held P :=
  h.move (congrArg (fun p : Spot (Exact K) n => p.toSetting) hst) (h.inside.keep hst)

theorem Session.Held.contained (h : s.Held P) : s.Contained P :=
  ⟨h.framed.box h.ready, h.inside⟩

theorem Session.Contained.move (h : s.Contained P) (hst : t.setting P = s.setting P)
    (hinside : t.Inside) : t.Contained P := by
  have hlower : t.lower = s.lower := congrArg Setting.lower hst
  have hupper : t.upper = s.upper := congrArg Setting.upper hst
  have hbox : t.work.box.blank = s.work.box.blank := congrArg Setting.box hst
  exact ⟨by rw [hlower, hupper, hbox]; exact h.box, hinside⟩

theorem Session.Contained.keep (h : s.Contained P) (hst : t.spot P = s.spot P) : t.Contained P :=
  h.move (congrArg (fun p : Spot (Exact K) n => p.toSetting) hst) (h.inside.keep hst)

theorem Session.Admits.keep {step : Vector (Exact K) n} (h : s.Admits step)
    (hst : t.spot P = s.spot P) : t.Admits step := by
  have hlower : t.lower = s.lower := congrArg (fun p => p.lower) hst
  have hupper : t.upper = s.upper := congrArg (fun p => p.upper) hst
  have hx : t.x = s.x := congrArg Spot.x hst
  unfold Session.Admits
  rw [hlower, hupper, hx]
  exact h

end

section
variable {K : Type} [Field K] [LinearOrder K] [IsStrictOrderedRing K] [SquareRoot K] {σ : Type}
  {n : Nat} {P : Problem (Exact K) σ n} {s t : Session (Exact K) σ n}

/-! ## The step of an iteration -/

/-- A step that is computed has finite entries. -/
theorem computeStep_finite {α : Type} [Scalar α] {P : Problem α σ n} {f step : Vector α n}
    {stepTolerance : α} {kind : StepKind} {s t : Session α σ n}
    (h : computeStep P f stepTolerance s = .ok (some (step, kind)) t) (i : Fin n) :
    isFinite step[i] = true := by
  rw [computeStep_eq] at h
  obtain ⟨_, _, _, h⟩ := bind_eq_ok.1 h
  obtain ⟨_, hfinite, _, _⟩ := stepByFactors_found h
  exact Vector.all_eq_true.1 hfinite i i.isLt

theorem limitByBox_fits (hP : Confining P.options) (hs : s.Contained P) {step : Vector (Exact K) n}
    (hstep : ∀ i : Fin n, isFinite step[i] = true) {limit : StepLimit (Exact K) n}
    (h : limitByBox P s.x step s = .ok limit t) : s.Admits limit.step := by
  rw [limitByBox_apply] at h
  cases h
  rw [← Box.limitStep_of_blank, hs.box, Box.limitStep_of_blank]
  exact fits_limitStep hs.inside hstep s.nominal _ hP.factor

omit [IsStrictOrderedRing K] in
theorem descentStep_finite {w : Workspace (Exact K) n} {f step : Vector (Exact K) n}
    (hstep : ∀ i : Fin n, isFinite step[i] = true) (i : Fin n) :
    isFinite (descentStep w f step)[i] = true := by
  unfold descentStep
  cases hdescent : steepestDescent? w.jacobian f w.residualScale with
  | none => exact hstep i
  | some descent => exact steepestDescent_finite hdescent i

theorem whenActive_fits (hP : Confining P.options) (hs : s.Contained P)
    {f step chosen : Vector (Exact K) n} {kind chosenKind : StepKind} (hstep : s.Admits step)
    (h : whenActive P s.x f step kind s = .ok (chosen, chosenKind) t) : s.Admits chosen := by
  unfold whenActive at h
  rw [get_bind_apply] at h
  dsimp only at h
  split at h
  · rw [notify_bind_apply] at h
    obtain ⟨limit, u, hu, h⟩ := bind_eq_ok.1 h
    rw [modifyWork_bind_apply] at h
    cases h
    have hnoticed : ({ s with notices := s.notices.push .descentForced } :
        Session (Exact K) σ n).Contained P := hs.keep rfl
    exact limitByBox_fits hP hnoticed (descentStep_finite fun i => (hstep i).proper) hu
  · cases h
    exact hstep

theorem boundedStep_fits (hP : Confining P.options) (hs : s.Contained P)
    {f step chosen : Vector (Exact K) n} {kind chosenKind : StepKind}
    (hstep : ∀ i : Fin n, isFinite step[i] = true)
    (h : boundedStep P s.x f step kind s = .ok (chosen, chosenKind) t) : s.Admits chosen := by
  unfold boundedStep at h
  rw [if_pos hP.enforce] at h
  obtain ⟨limit, u, hu, h⟩ := bind_eq_ok.1 h
  have hfits := limitByBox_fits hP hs hstep hu
  have hsu : u.spot P = s.spot P := congrArg Footing.toSpot ((course_limitByBox P _ _).ok hu).keeps
  split at h
  · rw [modifyWork_bind_apply, pure_bind_apply] at h
    split at h
    · cases h
      exact hfits
    · cases h
      exact hfits
  · rw [notify_bind_apply] at h
    obtain ⟨choice, v, hv, h⟩ := bind_eq_ok.1 h
    have hnoticed : ({ u with notices := u.notices.push (.boundsActive limit.active) } :
        Session (Exact K) σ n).Contained P := hs.keep hsu
    have hx : s.x = u.x := (congrArg Spot.x hsu).symm
    rw [hx] at hv
    have hadmits := whenActive_fits hP hnoticed (hfits.keep (P := P) hsu) hv
    have hback : s.Admits choice.1 := hadmits.keep (P := P) hsu.symm
    split at h
    · cases h
      exact hback
    · cases h
      exact hback

/-- The step that is searched along fits. -/
theorem searchDirection_fits (hP : Confining P.options) (hs : s.Contained P) {descent : Bool}
    {f step chosen : Vector (Exact K) n} {kind chosenKind : StepKind}
    (hstep : ∀ i : Fin n, isFinite step[i] = true)
    (h : searchDirection P descent s.x f step kind s = .ok (chosen, chosenKind) t) :
    s.Admits chosen := by
  unfold searchDirection at h
  rw [get_bind_apply] at h
  split at h
  · exact boundedStep_fits hP hs (descentStep_finite hstep) h
  · exact boundedStep_fits hP hs hstep h

/-! ## One attempt -/

theorem spot_of_footing {α : Type} [Scalar α] {P : Problem α σ n} {β : Type} {a : Action α σ n β}
    {s t : Session α σ n} {v : β} (h : Follows (Course (Session.footing P)) a)
    (ha : a s = .ok v t) : t.spot P = s.spot P :=
  congrArg Footing.toSpot (h.ok ha).keeps

/-- An iteration that comes to a step comes to one that fits. -/
theorem heading_fits (hP : Confining P.options) (hs : s.Contained P) {tol : Tolerances (Exact K)}
    {descent tighten : Bool} {iteration : Nat} {f : Vector (Exact K) n} {norm : Exact K}
    {record : RunRecord (Exact K)} {h : Heading (Exact K) n}
    (hrun : heading P tol descent tighten iteration f norm record s = .ok (.inr h) t) :
    s.Admits h.step := by
  obtain ⟨u, v, w, step, kind, hu, hv, hw, ht⟩ := heading_eq_ok hrun
  have hsu := spot_of_footing (course_prepareJacobian P _ _ _) hu
  have huv := ((course_tightenedNorm P tighten iteration h.fresh s.x f norm).ok hv).keeps
  have hsw := (spot_of_footing (course_computeStep P _ _) hw).trans (huv.trans hsu)
  have hx : s.x = w.x := (congrArg Spot.x hsw).symm
  rw [hx] at ht
  exact (searchDirection_fits hP (hs.keep hsw) (computeStep_finite hw) ht).keep hsw.symm

section
variable {tol : Tolerances (Exact K)} {descent : Bool} {k : Nat}
  {path : List (Waypoint (Exact K) n)} {progress : Progress (Exact K) n} {f : Vector (Exact K) n}
  {norm : Exact K} {record : RunRecord (Exact K)} {u v : Session (Exact K) σ n}
  {h : Heading (Exact K) n}

omit [IsStrictOrderedRing K] in
/-- A position of an attempt that has accepted nothing but points inside the bounds. -/
theorem Walk.contained_of (hwalk : Walk P tol descent s k path progress u) (hs : s.Contained P)
    (hpath : ∀ p ∈ path, s.Encloses p.x) : u.Contained P := by
  have hset : u.setting P = s.setting P := congrArg Stage.toSetting hwalk.known.course.keeps
  refine hs.move hset fun i => ?_
  have hlower : u.lower = s.lower := congrArg Setting.lower hset
  have hupper : u.upper = s.upper := congrArg Setting.upper hset
  rw [hlower, hupper, hwalk.known.at_point]
  cases hhead : path.head? with
  | none => exact hs.inside i
  | some p => exact hpath p (List.mem_of_head? hhead) i

/-- The step that an attempt searches along at such a position leads to a point inside the bounds. -/
theorem Walk.fits (hwalk : Walk P tol descent s k path (.onward f norm record) u)
    (hP : Confining P.options) (hs : s.Contained P) (hpath : ∀ p ∈ path, s.Encloses p.x)
    (hheading : heading P tol descent (tightensScales P.options s.work) (k + 1) f norm record u =
      .ok (.inr h) v) (i : Fin n) :
    Within s.lower[i] s.upper[i] u.x[i] ∧ Fits s.lower[i] s.upper[i] u.x[i] h.step[i] := by
  have hset : u.setting P = s.setting P := congrArg Stage.toSetting hwalk.known.course.keeps
  have hlower : u.lower = s.lower := congrArg Setting.lower hset
  have hupper : u.upper = s.upper := congrArg Setting.upper hset
  have hu := hwalk.contained_of hs hpath
  rw [← hlower, ← hupper]
  exact ⟨hu.inside i, heading_fits hP hu hheading i⟩

/-- All points that an attempt accepts lie inside the bounds. -/
theorem Walk.within (hwalk : Walk P tol descent s k path progress u) (hP : Confining P.options)
    (hs : s.Contained P) : ∀ p ∈ path, s.Encloses p.x := by
  induction hwalk with
  | undefined => exact fun _ hp => nomatch hp
  | solved | start =>
    intro p hp
    obtain rfl := List.mem_singleton.1 hp
    exact hs.inside
  | exhausted _ _ ih => exact ih
  | gaveUp _ _ _ ih => exact ih
  | stays _ _ _ _ _ ih => exact ih
  | moves hwalk _ hheading hsearch _ ih =>
    intro p hp
    obtain rfl | hp := List.mem_cons.1 hp
    · have hfits := hwalk.fits hP hs ih hheading
      exact lineSearch_within hsearch (fun i => (hfits i).1) fun i => (hfits i).2
    · exact ih p hp

theorem Walk.contained (hwalk : Walk P tol descent s k path progress u)
    (hP : Confining P.options) (hs : s.Contained P) : u.Contained P :=
  hwalk.contained_of hs (hwalk.within hP hs)

/-- In one of its searches, the attempt from `s` asks for the residual at `y`. -/
inductive Tries (P : Problem (Exact K) σ n) (tol : Tolerances (Exact K)) (descent : Bool)
    (s : Session (Exact K) σ n) (y : Vector (Exact K) n) : Prop
  | intro {k : Nat} {path : List (Waypoint (Exact K) n)} {f : Vector (Exact K) n}
      {norm : Exact K} {record : RunRecord (Exact K)} {u v w : Session (Exact K) σ n}
      {h : Heading (Exact K) n} {answer : Except EvalFailure (Vector (Exact K) n)} :
      Walk P tol descent s k path (.onward f norm record) u → k < P.options.maxIterations →
      heading P tol descent (tightensScales P.options s.work) (k + 1) f norm record u =
        .ok (.inr h) v →
      h.Leaves P tol u.x f v w → .evaluate y answer ∈ callsSince v w → Tries P tol descent s y

/-- All points that an attempt searches among lie inside the bounds. -/
theorem Tries.within {y : Vector (Exact K) n} (h : Tries P tol descent s y)
    (hP : Confining P.options) (hs : s.Contained P) : s.Encloses y := by
  cases h with
  | @intro k path f norm record u v w h answer hwalk _ hheading hleaves hcall =>
    have htried : Tried u.x h.step (h.facing v) w := by
      obtain ⟨_, hsearch⟩ | ⟨_, hsearch⟩ := hleaves
      · exact ((lineSearch_after _).ok hsearch).1
      · exact (lineSearch_after _).error hsearch
    obtain ⟨part, _, hpart, hy⟩ := htried.parts _ hcall
    cases hy
    intro i
    obtain ⟨hwithin, hfits⟩ := hwalk.fits hP hs (hwalk.within hP hs) hheading i
    exact within_along hpart hwithin hfits

/-- An attempt that begins inside the bounds ends there. -/
theorem runDamped_held (hP : Confining P.options) {attempt : Attempt (Exact K)} (hs : s.Held P)
    (h : runDamped P tol descent s = .ok attempt t) : t.Held P := by
  obtain ⟨_, _, hwalk⟩ := runDamped_eq_ok.1 h
  exact hs.move (congrArg Stage.toSetting hwalk.known.course.keeps)
    (hwalk.contained hP hs.contained).inside

end

end

end AlgebraicLoop
