import AlgebraicLoop.Proofs.Binary64Laws
import AlgebraicLoop.Proofs.Turns

/-!
# What success means

A solve by the damped method whose exit criterion looks at the residual succeeds in one of three
ways: the residual at the point it leaves is small with the residual scales it leaves; or the root
of a single unknown was pinched between two points of opposite sign; or one of these held before the
rescaled retry of a first solve, and the retry stopped short.

* `Settled`, `Pinched`: the two reasons for a success;
* `Walk.settled`, `runDamped_ok`, `refineAttempt_cases`: what an attempt and its refinement leave;
* `solve_succeeded`: what a success of a whole solve means.
-/

namespace AlgebraicLoop
set_option autoImplicit false

section
variable {α σ : Type} [Scalar α] {n : Nat}

/-! ## One attempt -/

/-- The residual at the point of the second session was found since the first one, and is small
with the residual scales of the second. -/
def Settled (o : Options α) (s t : Session α σ n) : Prop :=
  ∃ f, Evaluated s t t.x f ∧ scaledNorm f t.work.residualScale ≤ larger o.tolerance roundoff

/-- A tolerance that a residual may be held against. -/
def Admissible (o : Options α) (tolerance : α) : Prop :=
  tolerance = o.tolerance ∨ tolerance = roundoff

theorem settled_of_le [LawfulScalar α] {P : Problem α σ n} {s t : Session α σ n}
    {f : Vector α n} {norm tolerance : α} (h : Standpoint P s t f norm)
    (htol : Admissible P.options tolerance) (hle : norm ≤ tolerance) : Settled P.options s t := by
  refine ⟨f, h.evaluated, ?_⟩
  rw [← h.norm]
  obtain rfl | rfl := htol
  · exact LawfulScalar.le_larger_left hle
  · exact LawfulScalar.le_larger_right hle

theorem Settled.keep {o : Options α} {s t u : Session α σ n} (h : Settled o s t)
    (hst : t.calls.toList = s.calls.toList ++ callsSince s t)
    (htu : u.calls.toList = t.calls.toList ++ callsSince t u) (hx : u.x = t.x)
    (hscale : u.work.residualScale = t.work.residualScale) : Settled o s u := by
  obtain ⟨f, hf, hle⟩ := h
  refine ⟨f, ?_, ?_⟩
  · rw [hx]
    exact hf.later hst htu
  · rw [hscale]
    exact hle

/-- A verdict of convergence is passed on a small residual only. -/
theorem settled_of_verdict [LawfulScalar α] {P : Problem α σ n} {tol : Tolerances α}
    (hexit : P.options.exitCriterion ≠ .step) (htol : Admissible P.options tol.function)
    {s t : Session α σ n} {f : Vector α n} {norm stepNorm : α} {record : RunRecord α}
    {attempt : Attempt α} (hs : Standpoint P s t f norm)
    (hverdict : verdictAfterStep P.options tol norm stepNorm record = some attempt)
    (hfailure : attempt.failure = none) : Settled P.options s t := by
  unfold verdictAfterStep at hverdict
  split at hverdict
  · next hle => exact settled_of_le hs htol hle
  · split at hverdict
    · split at hverdict
      · next hor => exact settled_of_le hs (.inl rfl) (hor.resolve_left hexit)
      · cases hverdict
        cases hfailure
    · cases hverdict

/-- An attempt is over at a small residual, unless it stopped short. -/
theorem Walk.settled [LawfulScalar α] {P : Problem α σ n} {tol : Tolerances α}
    (hexit : P.options.exitCriterion ≠ .step) (htol : Admissible P.options tol.function)
    {descent : Bool} {s u : Session α σ n} {k : Nat} {path : List (Waypoint α n)}
    {attempt : Attempt α} (h : Walk P tol descent s k path (.over attempt) u)
    (hfailure : attempt.failure = none) : Settled P.options s u := by
  cases h with
  | undefined _ | exhausted _ _ => cases hfailure
  | solved hf hle =>
    obtain hle | hle := LawfulScalar.percent _ _ hle
    · exact settled_of_le (standpoint_start hf) htol hle
    · exact settled_of_le (standpoint_start hf) (.inr rfl) hle
  | gaveUp _ _ hheading =>
    obtain rfl | rfl := heading_stopped hheading
    · cases hfailure
    · cases hfailure
  | stays hwalk _ hheading hsearch hmove =>
    have hstand := (hwalk.standpoint.heading hheading).searched hsearch
    rw [searchAndMove_failed hsearch] at hmove
    split at hmove
    · cases hmove
    · split at hmove
      · next hsettles =>
        cases hmove
        simp only [settlesFor, hexit, decide_false, Bool.and_false, Bool.false_or,
          decide_eq_true_eq] at hsettles
        exact settled_of_le hstand (.inl rfl) hsettles
      · cases hmove
        cases hfailure
  | moves hwalk _ hheading hsearch hmove =>
    have hstand := (hwalk.standpoint.heading hheading).moved hsearch
    rw [searchAndMove_found hsearch] at hmove
    generalize hverdict : verdictAfterStep P.options tol _ _ _ = verdict at hmove
    cases verdict with
    | none => cases hmove
    | some attempt =>
      cases hmove
      exact settled_of_verdict hexit htol hstand hverdict hfailure

/-- An attempt that met its exit criterion leaves a small residual; one that stopped short leaves a
point where the residual is defined, or the point it was given. -/
theorem runDamped_ok [LawfulScalar α] {P : Problem α σ n} {tol : Tolerances α}
    (hexit : P.options.exitCriterion ≠ .step) (htol : Admissible P.options tol.function)
    {descent : Bool} {s t : Session α σ n} {attempt : Attempt α}
    (h : runDamped P tol descent s = .ok attempt t) :
    (attempt.failure = none → Settled P.options s t) ∧
      (t.x = s.x ∨ ∃ f, Evaluated s t t.x f) := by
  obtain ⟨k, path, hwalk⟩ := runDamped_eq_ok.1 h
  refine ⟨hwalk.settled hexit htol, ?_⟩
  obtain ⟨_, hx, hevaluated, _⟩ := hwalk.known
  cases path with
  | nil => exact .inl hx
  | cons p rest =>
    refine .inr ⟨p.f, ?_⟩
    rw [show t.x = p.x from hx]
    exact hevaluated p List.mem_cons_self

/-! ## The search for a root -/

/-- Do two values lie on the same side of zero? -/
def SameSide (p q : Sample α) : Prop := (p.f > 0 ∧ q.f > 0) ∨ (p.f < 0 ∧ q.f < 0)

/-- Between the two sessions the residual of the single unknown was found to be zero at the sample,
or on the other side of zero at a point that can hardly be told apart from it. -/
def RootOn (s t : Session α σ n) (p : Sample α) : Prop :=
  Sampled s t p ∧ ((p.f == 0) = true ∨ ∃ q, Sampled s t q ∧ ¬ SameSide p q ∧
    abs (0.5 * (q.x - p.x)) ≤ 2 * roundoff * abs p.x + 0.5 * 0)

theorem SameSide.symm {p q : Sample α} (h : SameSide p q) : SameSide q p :=
  h.imp And.symm And.symm

theorem not_sameSide_of_other [LawfulScalar α] {p q r : Sample α} (hpq : SameSide p q)
    (hrq : ¬ SameSide r q) : ¬ SameSide p r := by
  rintro (⟨hp, hr⟩ | ⟨hp, hr⟩)
  · obtain ⟨_, hq⟩ | ⟨hp', _⟩ := hpq
    · exact hrq (.inl ⟨hr, hq⟩)
    · exact LawfulScalar.lt_asymm hp hp'
  · obtain ⟨hp', _⟩ | ⟨_, hq⟩ := hpq
    · exact LawfulScalar.lt_asymm hp hp'
    · exact hrq (.inr ⟨hr, hq⟩)

theorem sameSide_iff (r : RootSearch α) : r.sameSide = true ↔ SameSide r.best r.opposite :=
  decide_eq_true_iff

/-- The three points of a search have a property. -/
structure RootSearch.Of (Q : Sample α → Prop) (r : RootSearch α) : Prop where
  best : Q r.best
  previous : Q r.previous
  opposite : Q r.opposite

namespace RootSearch
variable {Q Q' : Sample α → Prop} {r : RootSearch α}

omit [Scalar α] in
theorem Of.mono (h : r.Of Q) (hQ : ∀ p, Q p → Q' p) : r.Of Q' :=
  ⟨hQ _ h.best, hQ _ h.previous, hQ _ h.opposite⟩

/-- Points that are brought into order stay as they are, or the previous and the opposite one coincide
after that. -/
theorem arrange_cases (r : RootSearch α) :
    (¬ SameSide r.best r.opposite ∧ r.arrange = r) ∨
      ∃ p q, r.arrange.best = p ∧ r.arrange.previous = q ∧ r.arrange.opposite = q ∧
        ((p = r.best ∧ q = r.previous ∧ SameSide r.best r.opposite) ∨
          (p = r.previous ∧ q = r.best ∧ SameSide r.best r.opposite) ∨
          (p = r.opposite ∧ q = r.best ∧ ¬ SameSide r.best r.opposite)) := by
  unfold arrange
  dsimp only
  split
  · next hs =>
    have hs := (sameSide_iff r).1 hs
    split
    · exact .inr ⟨_, _, rfl, rfl, rfl, .inr (.inl ⟨rfl, rfl, hs⟩)⟩
    · exact .inr ⟨_, _, rfl, rfl, rfl, .inl ⟨rfl, rfl, hs⟩⟩
  · next hs =>
    have hs : ¬ SameSide r.best r.opposite := fun hsame => hs ((sameSide_iff r).2 hsame)
    split
    · exact .inr ⟨_, _, rfl, rfl, rfl, .inr (.inr ⟨rfl, rfl, hs⟩)⟩
    · exact .inl ⟨hs, rfl⟩

theorem Of.arrange (h : r.Of Q) : r.arrange.Of Q := by
  obtain ⟨_, hr⟩ | ⟨p, q, hp, hq, hq', hends⟩ := r.arrange_cases
  · rwa [hr]
  · have hpq : Q p ∧ Q q := by
      obtain ⟨rfl, rfl, _⟩ | ⟨rfl, rfl, _⟩ | ⟨rfl, rfl, _⟩ := hends
      · exact ⟨h.best, h.previous⟩
      · exact ⟨h.previous, h.best⟩
      · exact ⟨h.opposite, h.best⟩
    exact ⟨hp ▸ hpq.1, hq ▸ hpq.2, hq' ▸ hpq.2⟩

/-- Points in order lie on different sides of zero. -/
theorem not_sameSide_arrange [LawfulScalar α] (h : ¬ SameSide r.previous r.opposite) :
    ¬ SameSide r.arrange.best r.arrange.opposite := by
  obtain ⟨hs, hr⟩ | ⟨p, q, hp, _, hq, hends⟩ := r.arrange_cases
  · rwa [hr]
  · rw [hp, hq]
    obtain ⟨rfl, rfl, hs⟩ | ⟨rfl, rfl, hs⟩ | ⟨rfl, rfl, hs⟩ := hends
    · exact not_sameSide_of_other hs h
    · exact fun hsame => not_sameSide_of_other hs h hsame.symm
    · exact fun hsame => hs hsame.symm

end RootSearch

theorem evaluateSingle_ok {P : Problem α σ n} {h : n = 1} {x v : α} {s t : Session α σ n}
    (hrun : (evaluateSingle P h x).run s = .ok (.ok v) t) : Sampled s t ⟨x, v⟩ := by
  obtain ⟨answer, u, hu, hrun⟩ := bind_eq_ok.1 hrun
  cases answer with
  | error _ => cases hrun
  | ok f =>
    cases hrun
    refine ⟨Vector.replicate n x, f, evaluated_of_ok hu, ?_⟩
    unfold sampleOf?
    rw [dif_pos h]
    simp

theorem Sampled.later {s t u : Session α σ n} {p : Sample α} (h : Sampled s t p)
    (hst : t.calls.toList = s.calls.toList ++ callsSince s t)
    (htu : u.calls.toList = t.calls.toList ++ callsSince t u) : Sampled s u p := by
  obtain ⟨x, f, hf, hp⟩ := h
  exact ⟨x, f, hf.later hst htu, hp⟩

theorem course_evaluateSingle (P : Problem α σ n) (h : n = 1) (x : α) :
    Follows (Course (Session.footing P)) (evaluateSingle P h x).run :=
  Follows.bind (fun _ _ _ => Course.trans) (course_evaluate P _) fun _ s => Course.refl _ s

/-- A search that comes to its end has found a root. -/
theorem rootSearch_ok [LawfulScalar α] {P : Problem α σ n} {h : n = 1} {budget done : Nat}
    {r : RootSearch α} {found : RootFound α} {s t u : Session α σ n}
    (hst : Trail s t) (hr : r.Of (Sampled s t))
    (hside : ¬ SameSide r.previous r.opposite)
    (hrun : (RootSearch.run (evaluateSingle P h) 0 budget done r).run t = .ok (.ok found) u)
    (hconverged : found.converged = true) : RootOn s u found.point := by
  induction budget generalizing done r t with
  | zero =>
    cases hrun
    cases hconverged
  | succ budget ih =>
    have ha := hr.arrange
    have haside := RootSearch.not_sameSide_arrange hside
    unfold RootSearch.run at hrun
    dsimp only at hrun
    split at hrun
    · next hfinished =>
      cases hrun
      refine ⟨ha.best, ?_⟩
      obtain hnarrow | hzero := of_decide_eq_true hfinished
      · exact .inr ⟨_, ha.opposite, haside, hnarrow⟩
      · exact .inl hzero
    · rw [ExceptT.run_bind] at hrun
      obtain ⟨answer, v, hv, hrun⟩ := bind_eq_ok.1 hrun
      cases answer with
      | error mishap => cases hrun
      | ok value =>
        have htv := (course_evaluateSingle P h _).ok hv
        have hprobe : Sampled s v ⟨r.arrange.probe 0, value⟩ := by
          obtain ⟨x, f, hf, hp⟩ := evaluateSingle_ok hv
          exact ⟨x, f, hf.earlier hst.calls htv.calls, hp⟩
        have hlater := ha.mono fun _ hp => hp.later hst.calls htv.calls
        have hnext : (r.arrange.advance 0 value).Of (Sampled s v) :=
          ⟨hprobe, hlater.best, hlater.opposite⟩
        exact ih (hst.trans htv.trail) hnext haside hrun

/-- The root of the single unknown of the second session is the point of that session. -/
def Pinched (s t : Session α σ n) : Prop :=
  ∃ p, t.x = Vector.replicate n p.x ∧ RootOn s t p

theorem Pinched.evaluated {s t : Session α σ n} (h : Pinched s t) :
    ∃ f, Evaluated s t t.x f := by
  obtain ⟨p, hx, ⟨x, f, hf, hp⟩, _⟩ := h
  refine ⟨f, ?_⟩
  unfold sampleOf? at hp
  split at hp
  · next hn =>
    subst hn
    have hx0 : x[0] = p.x := congrArg Sample.x (Option.some.inj hp)
    have hsingle : Vector.replicate 1 x[0] = x := by
      ext i hi
      obtain rfl : i = 0 := by omega
      simp
    rw [hx, ← hx0, hsingle]
    exact hf
  · cases hp

/-- Between the two sessions the residual of the single unknown was found at two finite points on
different sides of zero. -/
structure Straddles (s t : Session α σ n) (below above : Sample α) : Prop where
  sampled : Sampled s t below ∧ Sampled s t above
  below_le : below.f ≤ 0
  above_not_le : ¬ above.f ≤ 0
  proper : isFinite below.x = true ∧ isFinite above.x = true

/-- The ends of a bracket that was empty at first. -/
theorem straddles_of_interval {s t : Session α σ n} {below above : Sample α} (hst : Trail s t)
    (hs : s.bracket = {}) (h : t.bracket.interval? = some (below, above)) :
    Straddles s t below above := by
  obtain ⟨hbelow, habove⟩ : t.bracket.below = some below ∧ t.bracket.above = some above := by
    unfold Bracket.interval? at h
    split at h
    · cases h
      exact ⟨by assumption, by assumption⟩
    · cases h
  have hsound : t.bracket.Sound := hst.sound (by rw [hs]; exact Bracket.sound_empty)
  have sampled : ∀ p, t.bracket.Has p → Sampled s t p := by
    intro p hp
    refine (hst.samples p hp).resolve_left fun hp => ?_
    rw [hs] at hp
    exact Bracket.not_has_empty p hp
  exact
    { sampled := ⟨sampled below (.inl hbelow), sampled above (.inr habove)⟩
      below_le := hsound.below below hbelow
      above_not_le := hsound.above above habove
      proper := ⟨(hsound.proper below (.inl hbelow)).1, (hsound.proper above (.inr habove)).1⟩ }

/-- A search between points on different sides of zero ends at a root. -/
theorem findRoot_ok [LawfulScalar α] {P : Problem α σ n} {h : n = 1} {below above : Sample α}
    {found : RootFound α} {s t u : Session α σ n} (hst : Trail s t)
    (hends : Straddles s t below above)
    (hrun : (findRoot (evaluateSingle P h) below above 0).run t = .ok (.ok found) u)
    (hconverged : found.converged = true) : RootOn s u found.point := by
  obtain ⟨hsb, hsa⟩ := hends.sampled
  unfold findRoot at hrun
  split at hrun
  · next hzero =>
    cases hrun
    exact ⟨hsb, .inl hzero⟩
  · refine rootSearch_ok hst (r := RootSearch.start below above) ⟨hsa, hsb, hsa⟩ ?_ hrun hconverged
    rintro (⟨hb, _⟩ | ⟨_, ha⟩)
    · exact LawfulScalar.not_lt_of_le hends.below_le hb
    · exact hends.above_not_le (LawfulScalar.le_of_lt ha)

/-- A refinement that moved from the first session to the second one, to the root it found between
two points. -/
structure Refinement (P : Problem α σ n) (t u : Session α σ n) (below above : Sample α) :
    Prop where
  interval : t.bracket.interval? = some (below, above)
  search : ∃ (h : n = 1) (found : RootFound α) (v : Session α σ n),
    (findRoot (evaluateSingle P h) below above 0).run t = .ok (.ok found) v ∧
    found.converged = true ∧ moveToRoot found.point found.iterations v = .ok () u

/-- A refinement leaves the attempt and the point as they are, or makes the attempt a success. -/
theorem refineAttempt_cases {P : Problem α σ n} {attempt attempt' : Attempt α} {refined : Bool}
    {t u : Session α σ n} (hrun : refineAttempt P attempt t = .ok (attempt', refined) u) :
    (refined = false ∧ attempt' = attempt ∧ Course (Session.footing P) t u) ∨
      (refined = true ∧ attempt'.failure = none ∧
        ∃ below above, Refinement P t u below above) := by
  unfold refineAttempt at hrun
  split at hrun
  · split at hrun
    · next h =>
      unfold refineRoot at hrun
      rw [get_bind_apply] at hrun
      cases hends : t.bracket.interval? with
      | none =>
        rw [hends] at hrun
        dsimp only at hrun
        split at hrun
        · cases hrun
          exact .inl ⟨rfl, rfl, Course.of_eq rfl rfl rfl⟩
        · cases hrun
          exact .inl ⟨rfl, rfl, Course.refl _ _⟩
      | some ends =>
        obtain ⟨below, above⟩ := ends
        rw [hends] at hrun
        obtain ⟨answer, v, hv, hrun⟩ := bind_eq_ok.1 hrun
        have htv := (course_findRoot P h below above 0).ok hv
        cases answer with
        | error _ =>
          cases hrun
          exact .inl ⟨rfl, rfl, htv⟩
        | ok found =>
          dsimp only at hrun
          split at hrun
          · next hconverged =>
            cases hrun
            exact .inr ⟨rfl, rfl, below, above, hends, h, found, v, hv, hconverged, rfl⟩
          · cases hrun
            exact .inl ⟨rfl, rfl, htv⟩
    · cases hrun
      exact .inl ⟨rfl, rfl, Course.refl _ _⟩
  · cases hrun
    exact .inl ⟨rfl, rfl, Course.refl _ _⟩

/-- A refinement moves to a root. -/
theorem Refinement.pinched [LawfulScalar α] {P : Problem α σ n} {s t u : Session α σ n}
    {below above : Sample α} (h : Refinement P t u below above) (hst : Trail s t)
    (hs : s.bracket = {}) : Pinched s u := by
  obtain ⟨_, found, v, hv, hconverged, hmove⟩ := h.search
  have hroot := findRoot_ok hst (straddles_of_interval hst hs h.interval) hv hconverged
  cases hmove
  exact ⟨found.point, rfl, hroot⟩

/-! ## The solve -/

/-- A success that was decided on in the second session: the residual is small there, or the root
was pinched by a refinement. -/
def Justified (o : Options α) (s t : Session α σ n) (refined : Bool) : Prop :=
  Settled o s t ∨ (refined = true ∧ Pinched s t)

/-- The solve that began in `s` had succeeded before its rescaled retry, which stopped short and
left its point and its residual scales to `t`. -/
def Stalled (P : Problem α σ n) (s t : Session α σ n) : Prop :=
  ∃ (standing : Standing α) (retry : Attempt α) (v w : Session α σ n),
    openingAttempts P s = .ok (true, standing) v ∧ standing.attempt.failure = none ∧
    Justified P.options s v standing.report.refined ∧ P.options.residualScaling ≠ .none ∧
    rescaledRetry P { v with notices := v.notices.push .rescaling } = .ok retry w ∧
    retry.failed = true ∧ t.x = w.x ∧ t.work.residualScale = w.work.residualScale

theorem Settled.since {o : Options α} {s t u : Session α σ n} (h : Settled o t u)
    (hst : Trail s t) (htu : Trail t u) : Settled o s u := by
  obtain ⟨f, hf, hle⟩ := h
  exact ⟨f, hf.earlier hst.calls htu.calls, hle⟩

theorem Sampled.since {s t u : Session α σ n} {p : Sample α} (h : Sampled t u p)
    (hst : Trail s t) (htu : Trail t u) : Sampled s u p := by
  obtain ⟨x, f, hf, hp⟩ := h
  exact ⟨x, f, hf.earlier hst.calls htu.calls, hp⟩

theorem Straddles.since {s t u : Session α σ n} {below above : Sample α}
    (h : Straddles t u below above) (hst : Trail s t) (htu : Trail t u) :
    Straddles s u below above :=
  { h with sampled := h.sampled.imp (·.since hst htu) (·.since hst htu) }

theorem Straddles.later {s t u : Session α σ n} {below above : Sample α}
    (h : Straddles s t below above) (hst : Trail s t) (htu : Trail t u) :
    Straddles s u below above :=
  { h with
    sampled := h.sampled.imp (·.later hst.calls htu.calls) (·.later hst.calls htu.calls) }

theorem RootOn.since {s t u : Session α σ n} {p : Sample α} (h : RootOn t u p) (hst : Trail s t)
    (htu : Trail t u) : RootOn s u p := by
  obtain ⟨hp, hroot⟩ := h
  refine ⟨hp.since hst htu, hroot.imp_right ?_⟩
  rintro ⟨q, hq, hside, hnear⟩
  exact ⟨q, hq.since hst htu, hside, hnear⟩

theorem RootOn.later {s t u : Session α σ n} {p : Sample α} (h : RootOn s t p) (hst : Trail s t)
    (htu : Trail t u) : RootOn s u p := by
  obtain ⟨hp, hroot⟩ := h
  refine ⟨hp.later hst.calls htu.calls, hroot.imp_right ?_⟩
  rintro ⟨q, hq, hside, hnear⟩
  exact ⟨q, hq.later hst.calls htu.calls, hside, hnear⟩

theorem Pinched.since {s t u : Session α σ n} (h : Pinched t u) (hst : Trail s t)
    (htu : Trail t u) : Pinched s u := by
  obtain ⟨p, hx, hroot⟩ := h
  exact ⟨p, hx, hroot.since hst htu⟩

theorem Pinched.keep {s t u : Session α σ n} (h : Pinched s t) (hst : Trail s t)
    (htu : Trail t u) (hx : u.x = t.x) : Pinched s u := by
  obtain ⟨p, hp, hroot⟩ := h
  exact ⟨p, hx.trans hp, hroot.later hst htu⟩

theorem Justified.keep {o : Options α} {s t u : Session α σ n} {refined : Bool}
    (h : Justified o s t refined) (hst : Trail s t) (htu : Trail t u) (hx : u.x = t.x)
    (hscale : u.work.residualScale = t.work.residualScale) : Justified o s u refined := by
  obtain h | ⟨hrefined, h⟩ := h
  · exact .inl (h.keep hst.calls htu.calls hx hscale)
  · exact .inr ⟨hrefined, h.keep hst htu hx⟩

theorem Justified.since {o : Options α} {s t u : Session α σ n} {refined : Bool}
    (h : Justified o t u refined) (hst : Trail s t) (htu : Trail t u) :
    Justified o s u refined := by
  obtain h | ⟨hrefined, h⟩ := h
  · exact .inl (h.since hst htu)
  · exact .inr ⟨hrefined, h.since hst htu⟩

theorem Justified.evaluated {o : Options α} {s t : Session α σ n} {refined : Bool}
    (h : Justified o s t refined) : ∃ f, Evaluated s t t.x f := by
  obtain ⟨f, hf, _⟩ | ⟨_, h⟩ := h
  · exact ⟨f, hf⟩
  · exact h.evaluated

theorem firstTolerances_admissible (o : Options α) (n : Nat) :
    Admissible o (o.firstTolerances n).function := by
  unfold Options.firstTolerances
  split
  · exact .inr rfl
  · exact .inr rfl
  · exact .inl rfl

/-- A success of the first attempt, refined or not, is justified. -/
theorem firstAttempt_justified [LawfulScalar α] {P : Problem α σ n}
    (hexit : P.options.exitCriterion ≠ .step) {standing : Standing α} {e s v : Session α σ n}
    (he : e.bracket = {}) (hes : Trail e s) (h : firstAttempt P s = .ok standing v) :
    Trail e v ∧
      (standing.attempt.failure = none → Justified P.options e v standing.report.refined) := by
  obtain ⟨attempt, t, ht, hv⟩ := firstAttempt_ok h
  have hstart := hes.trans (Course.of_eq rfl rfl rfl :
    Trail s { s with work := { s.work with firstAttempt := true, retrying := false } })
  have hrun := ((course_runDamped P _ _).ok ht).trail
  have hmark : Trail t { t with work := { t.work with firstAttempt := false } } :=
    Course.of_eq rfl rfl rfl
  have hrefine := (course_refineAttempt P attempt).ok hv
  have het := hstart.trans hrun
  refine ⟨(het.trans hmark).trans hrefine.trail, fun hfailure => ?_⟩
  obtain ⟨_, hattempt, hkeep⟩ | ⟨hrefined, _, _, _, hrefinement⟩ := refineAttempt_cases hv
  · rw [hattempt] at hfailure
    have hsettled :=
      ((runDamped_ok hexit (firstTolerances_admissible _ n) ht).1 hfailure).since hstart hrun
    refine .inl (hsettled.keep het.calls (hmark.trans hkeep.trail).calls ?_ ?_)
    · exact hkeep.point
    · exact congrArg Footing.residualScale hkeep.keeps
  · exact .inr ⟨hrefined, hrefinement.pinched (het.trans hmark) he⟩

/-- A success of the attempts before the rescaled one is justified. -/
theorem openingAttempts_justified [LawfulScalar α] {P : Problem α σ n}
    (hexit : P.options.exitCriterion ≠ .step) {first : Bool} {standing : Standing α}
    {s v : Session α σ n} (h : openingAttempts P s = .ok (first, standing) v) :
    Trail s v ∧
      (standing.attempt.failure = none → Justified P.options s v standing.report.refined) := by
  obtain ⟨_, s₁, hprelude, h⟩ := bind_eq_ok.1 h
  obtain ⟨_, s₂, hopen, h⟩ := bind_eq_ok.1 h
  obtain ⟨opened, t, hfirst, h⟩ := bind_eq_ok.1 h
  obtain ⟨_, u, hdescent, h⟩ := bind_eq_ok.1 h
  cases h
  obtain ⟨e, he, hse, hes⟩ := openSolve_ok hopen
  have hbegin := ((routine_course P).prelude.ok hprelude).trail.trans hse
  obtain ⟨het, hjustified⟩ := firstAttempt_justified hexit he hes hfirst
  have hst := hbegin.trans het
  obtain ⟨rfl, rfl⟩ | ⟨attempt, _, hrun, rfl⟩ := tryDescent_ok hdescent
  · exact ⟨hst, fun hfailure => (hjustified hfailure).since hbegin het⟩
  · have hnotice : Trail t { t with notices := t.notices.push .descentRetry } :=
      Course.of_eq rfl rfl rfl
    have htu := ((course_runDamped P _ _).ok hrun).trail
    refine ⟨(hst.trans hnotice).trans htu, fun hfailure => .inl ?_⟩
    exact ((runDamped_ok hexit (firstTolerances_admissible _ n) hrun).1 hfailure).since
      (hst.trans hnotice) htu

theorem trail_rescaledRetry (P : Problem α σ n) : Follows Trail (rescaledRetry P) := by
  have bind : ∀ {β γ : Type} {a : Action α σ n β} {f : β → Action α σ n γ}, Follows Trail a →
      (∀ v, Follows Trail (f v)) → Follows Trail (a >>= f) :=
    fun ha hf => ha.bind (fun _ _ _ => Course.trans) hf
  refine bind (course_updateResidualScales P).trail fun _ => ?_
  refine bind (fun s => Course.of_eq rfl rfl rfl) fun _ => ?_
  refine bind (course_runDamped P _ _).trail fun retry => ?_
  exact bind (fun s => Course.of_eq rfl rfl rfl) fun _ s => Course.refl _ s

/-- A retry with new residual scales that succeeds leaves a small residual; one that stops short
leaves a point where the residual is defined, or the point it was given. -/
theorem rescaledRetry_ok [LawfulScalar α] {P : Problem α σ n}
    (hexit : P.options.exitCriterion ≠ .step) {retry : Attempt α} {s t : Session α σ n}
    (h : rescaledRetry P s = .ok retry t) :
    (retry.failure = none → Settled P.options s t) ∧
      (t.x = s.x ∨ ∃ f, Evaluated s t t.x f) := by
  obtain ⟨u, v, hu, hv, rfl⟩ := rescaledRetry_runs h
  have hsu := (course_updateResidualScales P).ok hu
  have hbegin : Trail s { u with work := { u.work with retrying := true } } :=
    hsu.trail.trans (Course.of_eq rfl rfl rfl)
  have hrun := ((course_runDamped P _ _).ok hv).trail
  have hux : u.x = s.x := congrArg Spot.x hsu.keeps
  obtain ⟨hsettled, hx⟩ := runDamped_ok hexit (.inl rfl) hv
  refine ⟨fun hfailure => ?_, ?_⟩
  · exact (hsettled hfailure).since hbegin hrun
  · obtain hx | ⟨f, hf⟩ := hx
    · exact .inl (hx.trans hux)
    · exact .inr ⟨f, hf.earlier hbegin.calls hrun.calls⟩

/-- What a success between two sessions rests on: the residual is defined at the point it left, and
it is justified there or was justified before a stalled retry. -/
def Succeeded (P : Problem α σ n) (s t : Session α σ n) (refined : Bool) : Prop :=
  (∃ f, Evaluated s t t.x f) ∧ (Justified P.options s t refined ∨ Stalled P s t)

theorem Justified.succeeded {P : Problem α σ n} {s t : Session α σ n} {refined : Bool}
    (h : Justified P.options s t refined) : Succeeded P s t refined := ⟨h.evaluated, .inl h⟩

theorem Succeeded.keep {P : Problem α σ n} {s t u : Session α σ n} {refined : Bool}
    (h : Succeeded P s t refined) (hst : Trail s t) (htu : Trail t u) (hx : u.x = t.x)
    (hscale : u.work.residualScale = t.work.residualScale) : Succeeded P s u refined := by
  obtain ⟨⟨f, hf⟩, hreason⟩ := h
  refine ⟨⟨f, by rw [hx]; exact hf.later hst.calls htu.calls⟩, hreason.imp ?_ ?_⟩
  · exact fun h => h.keep hst htu hx hscale
  · rintro ⟨standing, retry, v, w, hopening, hfailure, hjustified, hscaling, hretry, hfailed, hwx,
      hwscale⟩
    exact ⟨standing, retry, v, w, hopening, hfailure, hjustified, hscaling, hretry, hfailed,
      hx.trans hwx, hscale.trans hwscale⟩

theorem tryRescaled_succeeded [LawfulScalar α] {P : Problem α σ n}
    (hexit : P.options.exitCriterion ≠ .step) {first : Bool} {opening standing : Standing α}
    {s v w : Session α σ n} (hopening : openingAttempts P s = .ok (first, opening) v)
    (h : tryRescaled P first opening v = .ok standing w) :
    Trail s w ∧
      (standing.attempt.failure = none → Succeeded P s w standing.report.refined) := by
  obtain ⟨hsv, hjustified⟩ := openingAttempts_justified hexit hopening
  obtain ⟨rfl, rfl⟩ | ⟨retry, t, hscaling, hcondition, hretry, rfl, rfl⟩ := tryRescaled_ok h
  · exact ⟨hsv, fun hfailure => (hjustified hfailure).succeeded⟩
  have hnotice : Trail v { v with notices := opening.rescalingNotices v.notices } :=
    Course.of_eq rfl rfl rfl
  have hbegin := hsv.trans hnotice
  have hvt := (trail_rescaledRetry P).ok hretry
  refine ⟨(hbegin.trans hvt).trans (Course.of_eq rfl rfl rfl), fun hfailure => ?_⟩
  change (opening.after retry).failure = none at hfailure
  rw [Session.concluded_of_success t hfailure]
  obtain ⟨hsettled, hx⟩ := rescaledRetry_ok hexit hretry
  obtain hafter | ⟨hopened, hfailed, _, hnotices⟩ := opening.after_cases retry
  · rw [hafter] at hfailure
    exact Justified.succeeded (.inl ((hsettled hfailure).since hbegin hvt))
  · -- the retry failed after a success
    obtain rfl : first = true := hcondition.resolve_right (by simp [Attempt.failed, hopened])
    rw [hnotices] at hretry
    refine ⟨?_, .inr ⟨opening, retry, v, t, hopening, hopened, hjustified hopened, hscaling,
      hretry, hfailed, rfl, rfl⟩⟩
    obtain hx | ⟨f, hf⟩ := hx
    · obtain ⟨f, hf⟩ := (hjustified hopened).evaluated
      refine ⟨f, ?_⟩
      rw [hx]
      exact hf.later hsv.calls (hnotice.trans hvt).calls
    · exact ⟨f, hf.earlier hbegin.calls hvt.calls⟩

theorem solveDamped_succeeded [LawfulScalar α] {P : Problem α σ n}
    (hexit : P.options.exitCriterion ≠ .step) {report : Report α} {s u t : Session α σ n}
    (hprelude : prelude P s = .ok () u) (h : solveDamped P u = .ok report t) :
    Trail s t ∧ Succeeded P s t report.refined := by
  obtain ⟨first, opening, rescaled, final, v, w, y, hopening, hrescaled, hnominal, hclose⟩ :=
    solveDamped_ok hprelude h
  obtain ⟨hsw, hsucceeded⟩ := tryRescaled_succeeded hexit hopening hrescaled
  obtain ⟨hfailure, hrefined, rfl⟩ := closeSolve_ok hclose
  have hyt : Trail y { y with
      phase := .converged
      model := (P.model.writeBack y.x y.model).2
      calls := y.calls.push (.writeBack y.x (.ok ())) } := Course.of_call rfl rfl rfl
  rw [hrefined]
  obtain ⟨rfl, rfl⟩ | ⟨x, attempt, _, _, hrun, rfl⟩ := tryNominal_ok hnominal
  · exact ⟨hsw.trans hyt, (hsucceeded hfailure).keep hsw hyt rfl rfl⟩
  · have hrestart : Trail w { w with
        x
        work := { w.work with jacobianAtPoint := false }
        notices := w.notices.push .nominalRetry } := Course.of_eq rfl rfl rfl
    have hbegin := hsw.trans hrestart
    have hwy := ((course_runDamped P _ _).ok hrun).trail
    have hsettled :=
      ((runDamped_ok hexit (firstTolerances_admissible _ n) hrun).1 hfailure).since hbegin hwy
    have hfinal : Succeeded P s y (rescaled.report.add attempt).refined :=
      Justified.succeeded (.inl hsettled)
    exact ⟨(hbegin.trans hwy).trans hyt, hfinal.keep (hbegin.trans hwy) hyt rfl rfl⟩

/-- A solve by the damped method that looks at the residual succeeds at a point where the residual
was found to be defined. There the residual is small with the residual scales of the block, or a
refinement pinched the root, or one of these held before a rescaled retry that stopped short. -/
theorem solve_succeeded [LawfulScalar α] {b b' : Block α σ n} {report : Report α}
    (hmethod : b.problem.options.method = .damped)
    (hexit : b.problem.options.exitCriterion ≠ .step) (h : b.solve = (.ok report, b')) :
    (∃ f, Evaluated b.session b'.session b'.session.x f) ∧
      (Settled b.problem.options b.session b'.session ∨
        (report.refined = true ∧ Pinched b.session b'.session) ∨
        Stalled b.problem b.session b'.session) := by
  obtain ⟨t, hrun, rfl⟩ := solve_eq_ok.1 h
  obtain ⟨u, v, hprelude, hsolve, rfl⟩ := solveAction_ok hrun
  unfold solveByMethod at hsolve
  rw [hmethod] at hsolve
  obtain ⟨htrail, hsucceeded⟩ := solveDamped_succeeded hexit hprelude hsolve
  have hmarks : Trail v v.unmarked := Course.of_eq rfl rfl rfl
  obtain ⟨hdefined, hreason⟩ := hsucceeded.keep htrail hmarks rfl rfl
  exact ⟨hdefined, or_assoc.1 hreason⟩

end

/-! ## Solves of binary64 numbers -/

set_option maxRecDepth 100000 in
theorem solve_succeeded_affine :
    ∃ report b', (Block.pointwise Options.standard #v[(1 : Float)]
        fun x => .ok (x.map fun x => x - 2)).solve = (.ok report, b') ∧
      ∃ f, Evaluated (Session.fresh 1 ()) b'.session b'.session.x f := by
  have hsolves : (Block.pointwise Options.standard #v[(1 : Float)]
      fun x => .ok (x.map fun x => x - 2)).solvesTo (fun _ => true) = true := by decide +kernel
  obtain ⟨report, b', hsolve, _⟩ := Block.exists_of_solvesTo hsolves
  exact ⟨report, b', hsolve, (solve_succeeded rfl (by decide) hsolve).1⟩

/-- A residual without a zero, that changes its sign at one. -/
def jump (x : Vector Float 1) : Except EvalFailure (Vector Float 1) :=
  .ok (x.map fun x => if x ≤ 1 then -1 else 1)

/-- A residual that is tiny, though not zero, below one half. -/
def ledge (x : Vector Float 1) : Except EvalFailure (Vector Float 1) :=
  .ok (x.map fun x => if x < 0.5 then 1e-17 else x)

/-- Is the residual small at the point of the block, with its residual scales? -/
def residualSmall (f : Vector Float 1 → Except EvalFailure (Vector Float 1))
    (b : Block Float Unit 1) : Bool :=
  match f b.session.x with
  | .ok y => scaledNorm y b.session.work.residualScale ≤ larger b.problem.options.tolerance roundoff
  | .error _ => false

set_option maxRecDepth 100000 in
/-- A refinement succeeds at a jump, and a stalled retry with scales that are too great for the
point that it leaves. -/
theorem solve_succeeds_unsettled :
    (∃ report b', (Block.pointwise
        { Options.standard with residualScaling := .none, maxIterations := 1 } #v[1] jump).solve =
          (.ok report, b') ∧ residualSmall jump b' = false) ∧
      ∃ report b', (Block.pointwise { Options.standard with maxIterations := 1 } #v[1]
        ledge).solve = (.ok report, b') ∧ residualSmall ledge b' = false := by
  constructor
  · have hsolves : (Block.pointwise
        { Options.standard with residualScaling := .none, maxIterations := 1 } #v[1] jump).solvesTo
          (fun b => !residualSmall jump b) = true := by decide +kernel
    obtain ⟨report, b', hsolve, htest⟩ := Block.exists_of_solvesTo hsolves
    exact ⟨report, b', hsolve, by simpa using htest⟩
  · have hsolves : (Block.pointwise { Options.standard with maxIterations := 1 } #v[1]
        ledge).solvesTo (fun b => !residualSmall ledge b) = true := by decide +kernel
    obtain ⟨report, b', hsolve, htest⟩ := Block.exists_of_solvesTo hsolves
    exact ⟨report, b', hsolve, by simpa using htest⟩

end AlgebraicLoop
