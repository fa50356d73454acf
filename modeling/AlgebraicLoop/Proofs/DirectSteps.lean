import AlgebraicLoop.Proofs.AffineLoops
import AlgebraicLoop.Proofs.InspectedLinearBlocks
import AlgebraicLoop.Proofs.NearestPoints
import AlgebraicLoop.Proofs.StartingOver

/-!
# Direct steps on affine loops

Under the direct method a solve of an affine loop makes one step. The Jacobian that it keeps or
evaluates is the matrix of the loop, and a factorization that belongs to that is the one of the
matrix, so that the step leads to the root. The point it comes to is the root, or the point between
the bounds that is nearest to it.

* `variableScales_sizes`: the sizes that the scales of unknowns stand for;
* `DirectLoop`, `Session.Settled`, `Workspace.Faithful`, `Session.due`: the loops, and what is kept
  between the operations on a block;
* `prelude_direct`, `setPoint_direct`: start values and given points;
* `prepareJacobian_direct`, `secureFactors_direct`, `moveDirectly_affine`: the parts of a step;
* `runDirect_affine`: the attempt of a direct solve.
-/

namespace AlgebraicLoop
set_option autoImplicit false

open Exact

/-! ## Scales -/

section
variable {K : Type} [Field K] [LinearOrder K] [IsStrictOrderedRing K] [SquareRoot K] {n : Nat}

/-- The size that a scale stands for is finite, even where the scale is not. -/
theorem magnitudeScale_size (x : K) {τ : K} :
    1 / magnitudeScale (finite x) (finite τ) = finite (max |x| τ) := by
  unfold magnitudeScale
  rw [abs_finite, larger_finite, one_eq]
  by_cases hzero : max |x| τ = 0
  · rw [hzero]
    have hscale : (finite 1 / finite 0 : Exact K) = posInfinity := by
      change (if (0 : K) = 0 then ofSign (SignType.sign 1) else _) = _
      rw [if_pos rfl, sign_pos one_pos]
      rfl
    rw [hscale]
    rfl
  · rw [finite_div _ hzero, finite_div _ (one_div_ne_zero hzero), one_div_one_div]

theorem variableScales_sizes {mode : VariableScaling (Exact K)} {nominal : Vector (Exact K) n} {τ : K}
    (hmode : ∀ m, mode = .manual m → ∀ x ∈ m, isFinite x = true)
    (hnominal : ∀ i : Fin n, isFinite nominal[i] = true) :
    ∃ size : Fin n → K, (∀ j : Fin n, 1 / (variableScales mode nominal (finite τ))[j] =
      finite (size j)) ∧ (0 < τ → ∀ j, 0 < size j) := by
  have hsize : ∀ j : Fin n, ∃ a : K, 1 / (variableScales mode nominal (finite τ))[j] = finite a ∧
      (0 < τ → 0 < a) := by
    intro j
    obtain ⟨c, hc⟩ := isFinite_iff.1 (hnominal j)
    cases mode with
    | none =>
      refine ⟨1, ?_, fun _ => one_pos⟩
      simp only [variableScales, getElem_position, Vector.getElem_replicate]
      rw [one_eq, finite_div _ one_ne_zero, div_one]
    | nominal =>
      refine ⟨max |c| τ, ?_, fun hτ => lt_max_of_lt_right hτ⟩
      simp only [variableScales, getElem_position, Vector.getElem_map] at hc ⊢
      rw [hc, magnitudeScale_size]
    | manual magnitudes =>
      have hmagnitude : ∃ a, magnitudes[(j : Nat)]?.getD nominal[j] = finite a := by
        cases hj : magnitudes[(j : Nat)]? with
        | none => exact ⟨c, hc⟩
        | some x => exact isFinite_iff.1 (hmode magnitudes rfl x (Array.mem_of_getElem? hj))
      obtain ⟨a, ha⟩ := hmagnitude
      refine ⟨max |a| τ, ?_, fun hτ => lt_max_of_lt_right hτ⟩
      simp only [variableScales, getElem_position, Vector.getElem_mapIdx] at ha ⊢
      rw [ha, magnitudeScale_size]
  choose size hsize hpos using hsize
  exact ⟨size, hsize, fun hτ j => hpos j hτ⟩

end

/-! ## Sessions between two operations -/

section
variable {α σ τ : Type} [Scalar α] {n : Nat} {s t : Session α σ n}

/-- How often the Jacobian was evaluated, and once more where the next solve cannot do without. -/
def Session.due (s : Session α σ n) : Nat :=
  s.counters.jacobianEvaluations + if s.usable then 0 else 1

/-- What a direct solve takes as it is once the block is set up; of the model's state only what `b`
takes from it. -/
structure Site (α τ : Type) (n : Nat) where
  lower : Vector α n
  upper : Vector α n
  nominal : Vector α n
  atEvent : Bool
  box : Box α n
  variableScale : Vector α n
  residualScale : Vector α n
  pattern : Option (Pattern n n)
  ready : Bool
  rhs : τ

def Session.site (b : σ → τ) (s : Session α σ n) : Site α τ n where
  lower := s.lower
  upper := s.upper
  nominal := s.nominal
  atEvent := s.atEvent
  box := s.work.box
  variableScale := s.work.variableScale
  residualScale := s.work.residualScale
  pattern := s.work.pattern
  ready := s.work.ready
  rhs := b s.model

theorem site_of_grounds {b : σ → τ} (h : t.grounds b = s.grounds b) : t.site b = s.site b :=
  (congrArg (Session.site id) h :)

end

section
variable {K : Type} [Field K] [LinearOrder K] [IsStrictOrderedRing K] [SquareRoot K] {σ : Type}
  {n : Nat} {A : Fin n → Fin n → K} {b : σ → Fin n → K} {P : Problem (Exact K) σ n} {τ δ : K}
  {s t : Session (Exact K) σ n} {lu : LU (Exact K) n}

/-- The loop of `A` and `b` under the direct method, with the tolerance `τ` and the relative increment
`δ` of difference quotients. The model gives start values whenever it is asked for them, with lower
bounds below the upper ones, and takes every point over. -/
structure DirectLoop (P : Problem (Exact K) σ n) (A : Fin n → Fin n → K) (b : σ → Fin n → K)
    (τ δ : K) : Prop where
  model : P.model.Affine A b
  method : P.options.method = .direct
  /-- Columns are not differenced in groups. -/
  source : P.options.jacobianSource ≠ .compressed
  tolerance : P.options.tolerance = finite τ
  tolerance_nonneg : 0 ≤ τ
  differenceStep : P.options.differenceStep = finite δ
  magnitudes : ∀ m, P.options.variableScaling = .manual m → ∀ x ∈ m, isFinite x = true
  start : ∀ m, ∃ (g : Givens (Exact K) n) (v : Fin n → K) (m' : σ),
    P.model.start (StartValues.default n) m = (.ok g.values, m') ∧ b m' = b m ∧
      g.initial = ofField v ∧ ∀ i : Fin n, g.lower[i] < g.upper[i]
  writeBack : ∀ x m, ∃ m', P.model.writeBack x m = (.ok (), m') ∧ b m' = b m

/-- A session of a loop in which nothing but direct solves has been asked for. -/
structure Session.Settled (P : Problem (Exact K) σ n) (s : Session (Exact K) σ n) : Prop where
  point : allFinite s.x = true
  calm : s.atEvent = false
  bounds : s.phase ≠ .untouched → ∀ i : Fin n, s.lower[i] < s.upper[i]
  nominal : s.phase ≠ .untouched → ∀ i : Fin n, isFinite s.nominal[i] = true
  pattern : s.work.pattern = none
  residualScale : s.work.residualScale = ofField 1
  ready : s.work.ready = true → s.phase ≠ .untouched ∧
    s.work.box = Box.ofBounds s.lower s.upper P.options.stepLimitFactor ∧
      s.work.variableScale =
        variableScales P.options.variableScaling s.nominal P.options.tolerance

/-- The Jacobian at hand, if it is current, is `A`, and the factorization at hand, if it belongs to
that Jacobian, is the one of `A`. -/
structure Workspace.Faithful (A : Fin n → Fin n → K) (lu : LU (Exact K) n)
    (w : Workspace (Exact K) n) : Prop where
  jacobian : w.flags.jacobianCurrent = true → w.jacobian = ofMatrix A
  dated : ∀ g, w.factoredGeneration = some g → g ≤ w.generation
  factors : w.isFactored = true → w.factorization = .lu lu

omit [IsStrictOrderedRing K] in
theorem Session.Settled.of_site (hs : s.Settled P) (h : t.site b = s.site b)
    (hx : allFinite t.x = true) (hphase : t.phase ≠ .untouched) (hstarted : s.phase ≠ .untouched) :
    t.Settled P := by
  have hlower : t.lower = s.lower := congrArg Site.lower h
  have hupper : t.upper = s.upper := congrArg Site.upper h
  have hnominal : t.nominal = s.nominal := congrArg Site.nominal h
  have hbox : t.work.box = s.work.box := congrArg Site.box h
  have hscale : t.work.variableScale = s.work.variableScale := congrArg Site.variableScale h
  refine
    { point := hx
      calm := (congrArg Site.atEvent h :).trans hs.calm
      bounds := fun _ i => ?_
      nominal := fun _ i => ?_
      pattern := (congrArg Site.pattern h :).trans hs.pattern
      residualScale := (congrArg Site.residualScale h :).trans hs.residualScale
      ready := fun hready => ?_ }
  · rw [hlower, hupper]
    exact hs.bounds hstarted i
  · rw [hnominal]
    exact hs.nominal hstarted i
  · obtain ⟨_, hbox', hscale'⟩ := hs.ready ((congrArg Site.ready h :).symm.trans hready)
    rw [hbox, hscale, hlower, hupper, hnominal]
    exact ⟨hphase, hbox', hscale'⟩

omit [IsStrictOrderedRing K] in
theorem Session.Settled.fresh (P : Problem (Exact K) σ n) (m : σ) :
    (Session.fresh n m : Session (Exact K) σ n).Settled P where
  point := allFinite_iff.2 ⟨0, replicate_zero⟩
  calm := rfl
  bounds h := absurd rfl h
  nominal h := absurd rfl h
  pattern := rfl
  residualScale := replicate_one
  ready h := by cases h

/-! ## Taking the start values -/

/-- The point nearest to `r` where bounds are enforced, else `r` itself. -/
def Problem.landing (P : Problem (Exact K) σ n) (lower upper : Vector (Exact K) n) (r : Fin n → K) :
    Vector (Exact K) n :=
  if P.options.enforceBounds then Vector.ofFn fun i => nearest lower[i] upper[i] (r i)
  else ofField r

theorem landing_finite (P : Problem (Exact K) σ n) {lower upper : Vector (Exact K) n}
    (h : ∀ i : Fin n, lower[i] < upper[i]) (r : Fin n → K) :
    ∃ y, P.landing lower upper r = ofField y ∧ (y = r → P.options.enforceBounds = true →
      ∀ i : Fin n, Within lower[i] upper[i] (finite (r i))) := by
  unfold Problem.landing
  by_cases henforced : P.options.enforceBounds = true
  · rw [if_pos henforced]
    choose y hy hinside using fun i => nearest_finite (h i) (r i)
    refine ⟨y, Vector.ext fun k hk => ?_, fun hyr _ i => hinside i (congrFun hyr i)⟩
    rw [Vector.getElem_ofFn, getElem_ofField]
    exact hy ⟨k, hk⟩
  · rw [if_neg henforced]
    exact ⟨r, rfl, fun _ h => absurd h henforced⟩

theorem landing_inside {lower upper : Vector (Exact K) n} {r : Fin n → K}
    (h : P.options.enforceBounds = true → ∀ i : Fin n, Within lower[i] upper[i] (finite (r i))) :
    P.landing lower upper r = ofField r := by
  unfold Problem.landing
  split
  · next henforced =>
    refine Vector.ext fun k hk => ?_
    rw [Vector.getElem_ofFn, getElem_ofField]
    exact nearest_inside (h henforced ⟨k, hk⟩)
  · rfl

theorem confined_finite {lower upper : Vector (Exact K) n} (P : Problem (Exact K) σ n)
    (h : ∀ i : Fin n, lower[i] < upper[i]) {x : Vector (Exact K) n} (hx : allFinite x = true) :
    allFinite (P.confined lower upper x) = true := by
  obtain ⟨v, rfl⟩ := allFinite_iff.1 hx
  obtain ⟨y, hy, _⟩ := landing_finite P h v
  have hconfined : P.confined lower upper (ofField v) = P.landing lower upper v := by
    unfold Problem.confined Problem.landing
    rw [project_ofField h]
  exact allFinite_iff.2 ⟨y, hconfined.trans hy⟩

/-- What an operation does to a session before it turns to the workspace. -/
structure Embarked (P : Problem (Exact K) σ n) (b : σ → Fin n → K) (s t : Session (Exact K) σ n) :
    Prop where
  settled : t.Settled P
  started : t.phase ≠ .untouched
  work : t.work = s.work
  eventSince : t.eventSinceJacobian = s.eventSinceJacobian
  evaluations : t.counters.jacobianEvaluations = s.counters.jacobianEvaluations
  rhs : b t.model = b s.model

theorem prepareUnknowns_direct (hP : DirectLoop P A b τ δ) (hs : s.Settled P) :
    ∃ t, prepareUnknowns P s = .ok () t ∧ Embarked P b s t := by
  by_cases hphase : s.phase = .untouched
  · obtain ⟨g, v, m', hstart, hb, hinitial, hbounds⟩ := hP.start s.model
    have hanswer : (P.model.start (StartValues.default n) s.model).1 = .ok g.values := by rw [hstart]
    have hstate : (P.model.start (StartValues.default n) s.model).2 = m' := by rw [hstart]
    obtain ⟨notices, hrun⟩ := prepareUnknowns_givens (P := P) hphase hanswer
      fun i => LawfulScalar.lt_asymm (hbounds i)
    refine ⟨_, hrun, ?_, Phase.noConfusion, rfl, rfl, rfl, ?_⟩
    · refine
        { point := confined_finite P hbounds (allFinite_iff.2 ⟨v, hinitial⟩)
          calm := hs.calm
          bounds := fun _ => hbounds
          nominal := fun _ i => ?_
          pattern := hs.pattern
          residualScale := hs.residualScale
          ready := fun hready => absurd hphase (hs.ready hready).1 }
      have hentry : g.repaired[i] =
          repairNominal g.nominal[i] g.lower[i] g.upper[i] g.initial[i] :=
        Vector.getElem_ofFn i.isLt
      change isFinite g.repaired[i] = true
      rw [hentry]
      exact repairNominal_finite _ _ _ _
    · change b (P.model.start (StartValues.default n) s.model).2 = b s.model
      rw [hstate, hb]
  · exact ⟨s, prepareUnknowns_again hphase, hs, hphase, rfl, rfl, rfl, rfl⟩

/-- A point that is moved into the bounds is still finite. -/
theorem Embarked.at (h : Embarked P b s t) {x : Vector (Exact K) n} (hx : allFinite x = true)
    (given : Bool) (solves : Nat) :
    Embarked P b s
      { t with
        x := P.confined t.lower t.upper x
        guessGiven := given
        counters.solves := solves } where
  settled :=
    { point := confined_finite P (h.settled.bounds h.started) hx
      calm := h.settled.calm
      bounds := h.settled.bounds
      nominal := h.settled.nominal
      pattern := h.settled.pattern
      residualScale := h.settled.residualScale
      ready := h.settled.ready }
  started := h.started
  work := h.work
  eventSince := h.eventSince
  evaluations := h.evaluations
  rhs := h.rhs

theorem prelude_direct (hP : DirectLoop P A b τ δ) (hs : s.Settled P) :
    ∃ t, prelude P s = .ok () t ∧ Embarked P b s t := by
  have hcounted : Session.Settled P { s with counters.solves := s.counters.solves + 1 } :=
    ⟨hs.point, hs.calm, hs.bounds, hs.nominal, hs.pattern, hs.residualScale, hs.ready⟩
  obtain ⟨t, hrun, ht⟩ := prepareUnknowns_direct hP hcounted
  have ht : Embarked P b s t := ⟨ht.settled, ht.started, ht.work, ht.eventSince, ht.evaluations, ht.rhs⟩
  refine ⟨_, ?_, ht.at ht.settled.point t.guessGiven t.counters.solves⟩
  unfold prelude
  rw [modify_bind_apply, bind_ok hrun, approach_apply, if_neg fun h => by simp [ht.settled.calm] at h]
  rfl

theorem setPoint_direct (hP : DirectLoop P A b τ δ) (hs : s.Settled P) {x : Array (Exact K)}
    (hx : ∀ a ∈ x, isFinite a = true) :
    (∃ halt, setPointAction P x s = .error halt s) ∨
      ∃ t, setPointAction P x s = .ok () t ∧ Embarked P b s t := by
  rw [setPointAction_eq]
  by_cases hsize : x.size = n
  · obtain ⟨t, hrun, ht⟩ := prepareUnknowns_direct hP hs
    have hfinite : allFinite (⟨x, hsize⟩ : Vector (Exact K) n) = true := by
      refine Vector.all_eq_true.2 fun i hi => hx _ ?_
      exact Array.getElem_mem _
    refine .inr ⟨_, ?_, ht.at hfinite true t.counters.solves⟩
    rw [checkLength_fit hsize, pure_bind, bind_ok hrun]
    exact takePoint_apply P _ t
  · refine .inl ⟨.fault (.dimensionMismatch n x.size), ?_⟩
    rw [checkLength_misfit hsize]
    rfl

/-! ## Up to the step -/

omit [IsStrictOrderedRing K] in
theorem setUp_direct (hP : DirectLoop P A b τ δ) (hs : s.Settled P) :
    discard (setUp P) s = .ok () (s.derived P) := by
  have hpattern : usablePattern? P s.model = none := if_neg hP.source
  cases hready : s.work.ready with
  | false =>
    change (setUp P >>= fun _ => pure ()) s = _
    rw [bind_ok (setUp_unready P hready)]
    rfl
  | true =>
    obtain ⟨_, hbox, hscale⟩ := hs.ready hready
    have hsame : s.derived P = s := by
      unfold Session.derived
      rw [← hbox, ← hscale, hpattern, ← hs.pattern, ← hready]
    change (setUp P >>= fun _ => pure ()) s = _
    rw [bind_ok (setUp_ready P hready), hsame]
    rfl

omit [IsStrictOrderedRing K] in
theorem Session.Settled.derived (hP : DirectLoop P A b τ δ) (hs : s.Settled P)
    (hstarted : s.phase ≠ .untouched) : (s.derived P).Settled P where
  point := hs.point
  calm := hs.calm
  bounds := hs.bounds
  nominal := hs.nominal
  pattern := if_neg hP.source
  residualScale := hs.residualScale
  ready _ := ⟨hstarted, rfl, rfl⟩

omit [Field K] [LinearOrder K] [IsStrictOrderedRing K] [SquareRoot K] in
/-- The factorization and its date are left alone, and no other Jacobian becomes current. -/
theorem Workspace.Faithful.keep {w w' : Workspace (Exact K) n} (hw : w.Faithful A lu)
    (hJ : w'.flags.jacobianCurrent = true → w'.jacobian = ofMatrix A)
    (hgeneration : w'.generation = w.generation)
    (hfactored : w'.factoredGeneration = w.factoredGeneration)
    (hfactorization : w'.factorization = w.factorization) : w'.Faithful A lu := by
  refine ⟨hJ, fun g hg => ?_, fun hisFactored => ?_⟩
  · rw [hgeneration]
    exact hw.dated g (hfactored.symm.trans hg)
  · unfold Workspace.isFactored at hisFactored
    rw [hfactored, hgeneration, hfactorization] at hisFactored
    rw [hfactorization]
    exact hw.factors hisFactored

omit [Field K] [LinearOrder K] [IsStrictOrderedRing K] [SquareRoot K] in
theorem Workspace.Faithful.of_stock (hw : s.work.Faithful A lu) (h : t.stock = s.stock) :
    t.work.Faithful A lu := by
  have hmarks : t.marks = s.marks := congrArg (fun p => p.1.toMarks) h
  have hjacobian : t.work.jacobian = s.work.jacobian := congrArg Prod.snd h
  refine hw.keep (fun hcurrent => ?_) (congrArg Marks.generation hmarks)
    (congrArg Marks.factoredGeneration hmarks) (congrArg Marks.factorization hmarks)
  rw [hjacobian]
  exact hw.jacobian ((congrArg Marks.current hmarks :).symm.trans hcurrent)

/-- What the parts of a direct solve carry from one to the next. The Jacobian is not evaluated where
the one at hand can be used, if that does not depend on events. -/
structure Carried (P : Problem (Exact K) σ n) (A : Fin n → Fin n → K) (b : σ → Fin n → K)
    (lu : LU (Exact K) n) (s t : Session (Exact K) σ n) : Prop where
  site : t.site b = s.site b
  phase : t.phase = s.phase
  faithful : t.work.Faithful A lu
  due : (∀ eventSince, P.variability.reusable eventSince = true) → t.due ≤ s.due

omit [Field K] [LinearOrder K] [IsStrictOrderedRing K] [SquareRoot K] in
theorem Carried.trans {u : Session (Exact K) σ n} (h : Carried P A b lu s t)
    (h' : Carried P A b lu t u) : Carried P A b lu s u where
  site := h'.site.trans h.site
  phase := h'.phase.trans h.phase
  faithful := h'.faithful
  due hlasting := (h'.due hlasting).trans (h.due hlasting)

omit [IsStrictOrderedRing K] in
theorem evaluate_direct (hP : DirectLoop P A b τ δ) (hw : s.work.Faithful A lu) (v : Fin n → K) :
    ∃ t, evaluate P (ofField v) s = .ok (.ok (ofField (affine A (b s.model) v))) t ∧ t.x = s.x ∧
      t.reuses P = s.reuses P ∧ Carried P A b lu s t := by
  obtain ⟨_, t, hrun, hst, rfl⟩ := evaluate_affine hP.model v s
  have hstock : t.stock = s.stock := ((closed_stock P).residual (ofField v)).ok hrun
  have hflags : t.work.flags = s.work.flags := (congrArg (fun u => u.work.flags) hst :)
  have hevaluations : t.counters.jacobianEvaluations = s.counters.jacobianEvaluations :=
    (congrArg (fun u => u.counters.jacobianEvaluations) hst :)
  have heventSince : t.eventSinceJacobian = s.eventSinceJacobian :=
    (congrArg Session.eventSinceJacobian hst :)
  refine ⟨t, hrun, (congrArg Session.x hst :), ?_, site_of_grounds hst,
    (congrArg Session.phase hst :), hw.of_stock hstock, fun _ => ?_⟩
  · unfold Session.reuses Session.usable
    rw [hflags, heventSince]
  · unfold Session.due Session.usable
    rw [hflags, hevaluations]

omit [Field K] [LinearOrder K] [IsStrictOrderedRing K] [SquareRoot K] in
theorem due_of_not_reuses (hnot : s.reuses P = false)
    (hlasting : ∀ eventSince, P.variability.reusable eventSince = true) :
    s.due = s.counters.jacobianEvaluations + 1 := by
  have husable : s.usable = false := by
    unfold Session.reuses at hnot
    rwa [hlasting, Bool.and_true] at hnot
  unfold Session.due
  rw [husable]
  rfl

omit [IsStrictOrderedRing K] in
/-- A Jacobian that was accepted is `A`, and no factorization is as new as it is. -/
theorem carried_renewed (hw : s.work.Faithful A lu) (hnot : s.reuses P = false)
    (hJ : t.work.jacobian = ofMatrix A) (hst : t.grounds b = s.renewed.grounds b) :
    Carried P A b lu s t := by
  have hgeneration : t.work.generation = s.work.generation + 1 :=
    (congrArg (fun u => u.work.generation) hst :)
  have hfactored : t.work.factoredGeneration = s.work.factoredGeneration :=
    (congrArg (fun u => u.work.factoredGeneration) hst :)
  have hold : ∀ g, t.work.factoredGeneration = some g → g ≤ s.work.generation := fun g hg =>
    hw.dated g (hfactored.symm.trans hg)
  have hflags : t.work.flags = s.renewed.work.flags := (congrArg (fun u => u.work.flags) hst :)
  have hevaluations : t.counters.jacobianEvaluations = s.counters.jacobianEvaluations + 1 :=
    (congrArg (fun u => u.counters.jacobianEvaluations) hst :)
  refine ⟨(site_of_grounds hst).trans rfl, (congrArg Session.phase hst :),
    ⟨fun _ => hJ, fun g hg => ?_, fun hisFactored => ?_⟩, fun hlasting => ?_⟩
  · have hle := hold g hg
    omega
  · have hle := hold _ (isFactored_iff.1 hisFactored).1
    omega
  · rw [due_of_not_reuses hnot hlasting]
    unfold Session.due Session.usable
    rw [hflags, hevaluations]
    exact Nat.le_refl _

omit [IsStrictOrderedRing K] in
/-- A Jacobian that was rejected is none. -/
theorem carried_disowned (hw : s.work.Faithful A lu) (hnot : s.reuses P = false)
    (hst : t.grounds b = s.disowned.grounds b) : Carried P A b lu s t := by
  have hflags : t.work.flags = s.disowned.work.flags := (congrArg (fun u => u.work.flags) hst :)
  have hevaluations : t.counters.jacobianEvaluations = s.counters.jacobianEvaluations :=
    (congrArg (fun u => u.counters.jacobianEvaluations) hst :)
  refine ⟨(site_of_grounds hst).trans rfl, (congrArg Session.phase hst :), ?_, fun hlasting => ?_⟩
  · refine hw.keep (fun hcurrent => ?_) (congrArg (fun u => u.work.generation) hst :)
      (congrArg (fun u => u.work.factoredGeneration) hst :)
      (congrArg (fun u => u.work.factorization) hst :)
    rw [hflags] at hcurrent
    cases hcurrent
  · rw [due_of_not_reuses hnot hlasting]
    unfold Session.due Session.usable
    rw [hflags, hevaluations]
    exact Nat.le_refl _

/-- The Jacobian that is prepared for a direct step is `A`. None is rejected as long as the one at hand
is used again or every unknown is moved for its quotients. -/
theorem prepareJacobian_direct (hP : DirectLoop P A b τ δ) (hs : s.Settled P)
    (hstarted : s.phase ≠ .untouched) (hw : s.work.Faithful A lu) {v h : Fin n → K}
    (hmoves : Moves P s.work.variableScale v h) :
    ∃ answer t, prepareJacobian P 1 (ofField v) (ofField (affine A (b s.model) v)) s =
        .ok answer t ∧ t.x = s.x ∧ Carried P A b lu s t ∧
      ((∃ fresh, answer = .ok fresh) ∧ t.work.flags.jacobianCurrent = true ∨
        (∃ mishap, answer = .error mishap) ∧ ¬ (s.reuses P = true ∨ Sure P h)) := by
  obtain ⟨husable, _, fresh, t, hrun, ht⟩ | ⟨hnot, hrun⟩ :=
    prepareJacobian_opening P (ofField v) (ofField (affine A (b s.model) v)) s
  · have hcurrent : s.work.flags.jacobianCurrent = true := (Bool.and_eq_true_iff.1 husable).1
    refine ⟨_, t, hrun, ?_⟩
    obtain rfl | rfl := ht
    · exact ⟨rfl, ⟨rfl, rfl, hw, fun _ => Nat.le_refl _⟩, .inl ⟨⟨fresh, rfl⟩, hcurrent⟩⟩
    · exact ⟨rfl, ⟨rfl, rfl, ⟨hw.jacobian, hw.dated, hw.factors⟩, fun _ => Nat.le_refl _⟩,
        .inl ⟨⟨fresh, rfl⟩, hcurrent⟩⟩
  · rw [hrun]
    obtain ⟨t, hevaluate, hJ, hst⟩ | ⟨hunsure, mishap, t, hevaluate, hst⟩ :=
      evaluateJacobian_affine hP.model hs.pattern (hs.bounds hstarted) hmoves
    · refine ⟨.ok true, t, ?_, (congrArg Session.x hst :), carried_renewed hw hnot hJ hst,
        .inl ⟨⟨true, rfl⟩, (congrArg (fun u => u.work.flags.jacobianCurrent) hst :)⟩⟩
      rw [bind_ok hevaluate]
      rfl
    · refine ⟨.error mishap, t, ?_, (congrArg Session.x hst :), carried_disowned hw hnot hst,
        .inr ⟨⟨mishap, rfl⟩, not_or.2 ⟨Bool.eq_false_iff.1 hnot, hunsure⟩⟩⟩
      rw [bind_ok hevaluate]
      rfl

omit [IsStrictOrderedRing K] in
theorem secureFactors_direct (hlu : LU.factor (ofMatrix A) = .ok lu) (hw : s.work.Faithful A lu)
    (hcurrent : s.work.flags.jacobianCurrent = true) :
    ∃ t, secureFactors factorDirect s = .ok true t ∧ t.x = s.x ∧ Carried P A b lu s t ∧
      t.work.factorization = .lu lu := by
  have hJ := hw.jacobian hcurrent
  cases hfactored : s.work.isFactored with
  | true =>
    rw [secureFactors_kept hfactored]
    exact ⟨s, rfl, rfl, ⟨rfl, rfl, hw, fun _ => Nat.le_refl _⟩, hw.factors hfactored⟩
  | false =>
    have hfactors : directFactors s.work.jacobian = .lu lu := by
      unfold directFactors
      rw [hJ, hlu]
    obtain ⟨_, _, hrun⟩ := factorDirect_run s
    rw [hfactors] at hrun
    rw [secureFactors_due hfactored]
    refine ⟨_, hrun, rfl, ⟨rfl, rfl, ⟨fun _ => hJ, fun g hg => ?_, fun _ => rfl⟩, fun _ => ?_⟩, rfl⟩
    · exact (Option.some.inj hg).ge
    · exact Nat.le_refl _

/-! ## The step -/

/-- Is the residual at `y` small enough for a solve that started at `v`? -/
def Acceptable (A : Fin n → Fin n → K) (c : Fin n → K) (τ : K) (v y : Fin n → K) : Prop :=
  maxNorm (ofField (affine A c y)) ≤ finite τ * larger 1 (maxNorm (ofField (affine A c v)))

theorem acceptable_root {c r : Fin n → K} (hτ : 0 ≤ τ) (hr : affine A c r = 0) (v : Fin n → K) :
    Acceptable A c τ v r := by
  obtain ⟨m, hm, hnonneg, _, _⟩ := maxNorm_ofField (affine A c v)
  obtain ⟨m', hm', _, _, hzero⟩ := maxNorm_ofField (affine A c r)
  obtain rfl : m' = 0 := hzero.2 fun i => congrFun hr i
  unfold Acceptable
  rw [hm', hm, one_eq, larger_finite, finite_mul, finite_le_finite]
  exact mul_nonneg hτ (zero_le_one.trans (le_max_left 1 m))

theorem differs_ofField (y r : Fin n → K) : differs (ofField y) (ofField r) = true ↔ y ≠ r := by
  unfold differs
  rw [Bool.not_eq_true', ← Bool.not_eq_true, not_iff_not, Vector.all_eq_true]
  constructor
  · intro h
    funext i
    have hi := h i i.isLt
    simp only [Vector.getElem_zipWith, getElem_ofField, id] at hi
    obtain ⟨hle, hge⟩ := beq_iff.1 hi
    exact le_antisymm hle hge
  · rintro rfl i hi
    simp only [Vector.getElem_zipWith, id]
    exact beq_iff.2 ⟨exact_le_self (by simp), exact_le_self (by simp)⟩

/-- A direct solve is refused only away from the root. -/
theorem verdictOnDirect_affine (hP : DirectLoop P A b τ δ) {c r : Fin n → K} (hr : affine A c r = 0)
    {v y : Fin n → K} {record : RunRecord (Exact K)}
    (hrecord : record.residualNorm = maxNorm (ofField (affine A c y))) {attempt : Attempt (Exact K)}
    (hattempt : attempt = verdictOnDirect (P.options.plainTolerances n)
      (maxNorm (ofField (affine A c v))) (differs (ofField y) (ofField r)) record) :
    attempt.failure = none ∧ Acceptable A c τ v y ∨
      attempt.failure = some .solutionOutsideBounds ∧ y ≠ r ∧ ¬ Acceptable A c τ v y := by
  obtain ⟨m, hm, _, _, _⟩ := maxNorm_ofField (affine A c v)
  obtain ⟨m', hm', _, _, _⟩ := maxNorm_ofField (affine A c y)
  subst hattempt
  unfold verdictOnDirect Options.plainTolerances
  dsimp only
  rw [hrecord, hP.tolerance]
  by_cases hlarge : maxNorm (ofField (affine A c y)) >
      finite τ * larger 1 (maxNorm (ofField (affine A c v)))
  · have hmissed : ¬ Acceptable A c τ v y := LawfulScalar.not_le_of_lt hlarge
    have hne : y ≠ r := by
      rintro rfl
      exact hmissed (acceptable_root hP.tolerance_nonneg hr v)
    rw [if_pos hlarge, if_pos ((differs_ofField y r).2 hne)]
    exact .inr ⟨rfl, hne, hmissed⟩
  · rw [if_neg hlarge]
    refine .inl ⟨rfl, ?_⟩
    unfold Acceptable
    rw [hm, hm', one_eq, larger_finite, finite_mul] at hlarge ⊢
    exact exact_le_of_not_lt (finite_ne_nan _) (finite_ne_nan _) hlarge

/-- A direct solve from `v` has moved to `y`, between the bounds; the root is `r`. -/
structure Landed (P : Problem (Exact K) σ n) (A : Fin n → Fin n → K) (c : Fin n → K) (τ : K)
    (v r y : Fin n → K) (lower upper : Vector (Exact K) n) (attempt : Attempt (Exact K)) : Prop where
  nearest : ofField y = P.landing lower upper r
  single : attempt.record.iterations = 1
  verdict : attempt.failure = none ∧ Acceptable A c τ v y ∨
    attempt.failure = some .solutionOutsideBounds ∧ y ≠ r ∧ ¬ Acceptable A c τ v y

theorem moveDirectly_affine (hP : DirectLoop P A b τ δ) (hs : s.Settled P)
    (hready : s.work.ready = true) (hw : s.work.Faithful A lu) {c v p r : Fin n → K}
    (hc : b s.model = c) (hp : ∀ i, v i + p i = r i) (hr : affine A c r = 0) (kind : StepKind) :
    ∃ attempt t y, moveDirectly P (P.options.plainTolerances n) (ofField v)
        (maxNorm (ofField (affine A c v))) (ofField p) kind s = .ok attempt t ∧
      t.x = ofField y ∧ Carried P A b lu s t ∧
        Landed P A c τ v r y s.lower s.upper attempt := by
  subst hc
  obtain ⟨hstarted, hbox, _⟩ := hs.ready hready
  obtain ⟨y, hy, _⟩ := landing_finite P (hs.bounds hstarted) r
  have htarget : (ofField v).zipWith (· + ·) (ofField p) = ofField r :=
    zipWith_ofField fun i => by rw [finite_add, hp]
  have hclamp : clampPoint P s.work (ofField r) = ofField y := by
    rw [← hy]
    unfold clampPoint Problem.landing
    rw [hbox, clamp_ofBounds (hs.bounds hstarted)]
  obtain ⟨u, hu, hux, _, hsu⟩ := evaluate_direct (b := b) hP hw y
  have hscale : u.work.residualScale = ofField 1 :=
    (congrArg Site.residualScale hsu.site :).trans hs.residualScale
  unfold moveDirectly
  rw [get_bind_apply, htarget, hclamp, bind_ok hu]
  refine ⟨_, _, y, rfl, rfl, ⟨hsu.site, hsu.phase, ?_, hsu.due⟩, hy.symm, ?_, ?_⟩
  · exact ⟨hsu.faithful.jacobian, hsu.faithful.dated, hsu.faithful.factors⟩
  · rw [verdictOnDirect_record]
    rfl
  · refine verdictOnDirect_affine hP hr ?_ rfl
    change scaledNorm (ofField (affine A (b s.model) y)) u.work.residualScale = _
    rw [hscale, scaledNorm_ofField]
    simp

omit [IsStrictOrderedRing K] in
theorem stepDirectly_solved {tol : Tolerances (Exact K)} {x : Vector (Exact K) n} {norm : Exact K}
    {f p : Fin n → K} (hfactors : s.work.factorization = .lu lu)
    (hp : lu.solve (ofField fun i => -f i) = ofField p) :
    stepDirectly P tol x (ofField f) norm true s =
      moveDirectly P tol x norm (ofField p) .newton s := by
  have hfinite : allFinite (ofField p) = true := allFinite_iff.2 ⟨p, rfl⟩
  have hstep : directStep? s.work (ofField f) = some (ofField p, .newton) := by
    unfold directStep?
    rw [hfactors]
    dsimp only
    rw [map_neg_ofField, hp, Option.filter_some, if_pos hfinite]
  unfold stepDirectly
  rw [get_bind_apply]
  dsimp only
  rw [if_pos rfl, hstep]

/-- How a direct solve from `v` went: it landed, or its Jacobian was rejected. -/
inductive DirectRun (P : Problem (Exact K) σ n) (A : Fin n → Fin n → K) (c : Fin n → K) (τ : K)
    (h v r : Fin n → K) (s t : Session (Exact K) σ n) (attempt : Attempt (Exact K)) : Prop where
  | landed (y : Fin n → K) : t.x = ofField y → Landed P A c τ v r y s.lower s.upper attempt →
      DirectRun P A c τ h v r s t attempt
  | rejected : t.x = s.x → attempt.failure = some .jacobian → ¬ (s.reuses P = true ∨ Sure P h) →
      DirectRun P A c τ h v r s t attempt

theorem runDirect_affine (hP : DirectLoop P A b τ δ) (hlu : LU.factor (ofMatrix A) = .ok lu)
    (hs : s.Settled P) (hready : s.work.ready = true) (hw : s.work.Faithful A lu) {v h : Fin n → K}
    (hx : s.x = ofField v) (hmoves : Moves P s.work.variableScale v h) :
    ∃ attempt t r, runDirect P (P.options.plainTolerances n) s = .ok attempt t ∧
      Carried P A b lu s t ∧ affine A (b s.model) r = 0 ∧
        DirectRun P A (b s.model) τ h v r s t attempt := by
  obtain ⟨hstarted, _, _⟩ := hs.ready hready
  obtain ⟨p, hp, hsolves⟩ := factor_solve hlu fun i => -affine A (b s.model) v i
  have hroot : affine A (b s.model) (fun i => v i + p i) = 0 := affine_root hsolves
  obtain ⟨t, ht, htx, hreuses, hst⟩ := evaluate_direct (b := b) hP hw v
  have hmodel : b t.model = b s.model := (congrArg Site.rhs hst.site :)
  have hscale : t.work.variableScale = s.work.variableScale :=
    (congrArg Site.variableScale hst.site :)
  have hunscaled : t.work.residualScale = ofField 1 :=
    (congrArg Site.residualScale hst.site :).trans hs.residualScale
  have hready' : t.work.ready = true := (congrArg Site.ready hst.site :).trans hready
  have hstarted' : t.phase ≠ .untouched := by
    rw [hst.phase]
    exact hstarted
  have hnorm : scaledNorm (ofField (affine A (b s.model) v)) t.work.residualScale =
      maxNorm (ofField (affine A (b s.model) v)) := by
    rw [hunscaled, scaledNorm_ofField]
    simp
  have hts : t.Settled P :=
    hs.of_site hst.site (by rw [htx]; exact hs.point) hstarted' hstarted
  obtain ⟨answer, u, hu, hux, htu, hanswer⟩ :=
    prepareJacobian_direct hP hts hstarted' hst.faithful (h := h) (v := v) (by rw [hscale]; exact hmoves)
  rw [hmodel] at hu
  rw [hreuses] at hanswer
  rw [runDirect_eq, get_bind_apply, hx]
  dsimp only
  rw [bind_ok ht]
  dsimp only
  rw [get_bind_apply, hnorm, bind_ok hu]
  obtain ⟨⟨fresh, rfl⟩, hcurrent⟩ | ⟨⟨mishap, rfl⟩, hunsure⟩ := hanswer
  · obtain ⟨y, hy, hyx, huy, hfactors⟩ :=
      secureFactors_direct (P := P) (b := b) hlu htu.faithful hcurrent
    have hsy := (hst.trans htu).trans huy
    have hys : y.Settled P := hs.of_site hsy.site
      (by rw [hyx, hux, htx]; exact hs.point) (by rw [hsy.phase]; exact hstarted) hstarted
    obtain ⟨attempt, z, y', hz, hzx, hyz, hlanded⟩ := moveDirectly_affine hP hys
      ((congrArg Site.ready hsy.site :).trans hready) huy.faithful (congrArg Site.rhs hsy.site :)
      (fun i => rfl) hroot .newton
    have hlower : y.lower = s.lower := (congrArg Site.lower hsy.site :)
    have hupper : y.upper = s.upper := (congrArg Site.upper hsy.site :)
    rw [hlower, hupper] at hlanded
    refine ⟨attempt, z, _, ?_, hsy.trans hyz, hroot, .landed y' hzx hlanded⟩
    dsimp only
    rw [bind_ok hy, stepDirectly_solved hfactors hp]
    exact hz
  · exact ⟨_, u, _, rfl, hst.trans htu, hroot, .rejected (hux.trans htx) rfl hunsure⟩

end

end AlgebraicLoop
