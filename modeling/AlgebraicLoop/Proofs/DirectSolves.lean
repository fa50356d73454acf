import AlgebraicLoop.Proofs.AffineAttempts
import AlgebraicLoop.Proofs.DirectSteps

/-!
# Direct solves of affine loops

A block that solves an affine loop directly may be given points, and the state of its model may
change, between its solves. Only the right-hand side of the loop changes by that, and the right-hand
side is in the residual: the Jacobian and its factorization can be kept. So every solve comes to the
root that belongs to the state of the model then, or to the point between the bounds that is nearest
to it.

A solve that cannot use the Jacobian at hand again may not come by another, because some unknown stays
where it is for its quotient. That happens only where an increment is zero.

* `EndsIn`, `Delivered`, `Arrival`: how a solve ends;
* `Block.solve_direct`: one solve;
* `Served`, `Served.invariant`: histories of operations, and what they keep;
* `solve_affine_loop`: how often the Jacobian is evaluated, and what the next solve comes to.
-/

namespace AlgebraicLoop
set_option autoImplicit false

open Exact

/-! ## A solve -/

section
variable {α σ : Type} [Scalar α] {n : Nat} {s t : Session α σ n}

/-- The action ends in `t` with the answer. -/
def EndsIn {β : Type} (a : Action α σ n β) (s : Session α σ n) (answer : Except (Halt α) β)
    (t : Session α σ n) : Prop :=
  match answer with
  | .ok v => a s = .ok v t
  | .error halt => a s = .error halt t

/-- How many failures an answer counts for. -/
def failures {β : Type} : Except (Halt α) β → Nat
  | .ok _ => 0
  | .error _ => 1

omit [Scalar α] in
theorem EndsIn.after {β γ : Type} {a : Action α σ n β} {f : β → Action α σ n γ} {v : β}
    {answer : Except (Halt α) γ} {u : Session α σ n} (hf : EndsIn (f v) t answer u)
    (ha : a s = .ok v t) : EndsIn (a >>= f) s answer u := by
  cases answer with
  | ok w => exact (bind_ok ha).trans hf
  | error halt => exact (bind_ok ha).trans hf

omit [Scalar α] in
theorem EndsIn.always {β : Type} {a : Action α σ n β} {answer : Except (Halt α) β}
    (h : EndsIn a s answer t) (g : Session α σ n → Session α σ n) :
    EndsIn (thenAlways a g) s answer (g t) := by
  cases answer with
  | ok w => exact thenAlways_ok h
  | error halt => exact thenAlways_error h

omit [Scalar α] in
theorem Block.perform_of_ends {β : Type} {B : Block α σ n} {a : Problem α σ n → Action α σ n β}
    {answer : Except (Halt α) β} (h : EndsIn (a B.problem) B.session answer t) :
    B.perform a = (answer, { B with session := t }) := by
  cases answer with
  | ok w => exact Block.perform_ok h
  | error halt => exact Block.perform_error h

end

section
variable {K : Type} [Field K] [LinearOrder K] [IsStrictOrderedRing K] [SquareRoot K] {σ : Type}
  {n : Nat} {A : Fin n → Fin n → K} {b : σ → Fin n → K} {P : Problem (Exact K) σ n} {τ δ : K}
  {s t : Session (Exact K) σ n} {lu : LU (Exact K) n}

omit [IsStrictOrderedRing K] in
theorem writeBack_direct (hP : DirectLoop P A b τ δ) (hw : s.work.Faithful A lu) :
    ∃ t, writeBack P s = .ok () t ∧ t.x = s.x ∧ Carried P A b lu s t := by
  obtain ⟨m', hm, hb⟩ := hP.writeBack s.x s.model
  unfold writeBack
  rw [get_bind_apply, ask_bind_apply, hm]
  refine ⟨_, rfl, rfl, ?_, rfl, hw, fun _ => Nat.le_refl _⟩
  unfold Session.site
  dsimp only
  rw [hb]

/-- What a direct solve leaves at its end. -/
structure Delivered (P : Problem (Exact K) σ n) (A : Fin n → Fin n → K) (b : σ → Fin n → K)
    (lu : LU (Exact K) n) (failures : Nat) (s t : Session (Exact K) σ n) : Prop where
  x : t.x = s.x
  site : t.site b = s.site b
  started : t.phase ≠ .untouched
  faithful : t.work.Faithful A lu
  due : (∀ eventSince, P.variability.reusable eventSince = true) → t.due ≤ s.due + failures

/-- The verdict on the attempt becomes the answer of the solve. -/
structure Reflects (standing : Standing (Exact K))
    (answer : Except (Halt (Exact K)) (Report (Exact K))) : Prop where
  converged : standing.attempt.failure = none →
    ∃ report, answer = .ok report ∧ report.iterations = standing.report.iterations
  stopped : ∀ reason, standing.attempt.failure = some reason →
    ∃ details, answer = .error (.fault (.unconverged details)) ∧ details.reason = reason

omit [IsStrictOrderedRing K] in
theorem closeSolve_direct (hP : DirectLoop P A b τ δ) (hw : s.work.Faithful A lu)
    (standing : Standing (Exact K)) :
    ∃ answer t, EndsIn (closeSolve P standing) s answer t ∧ Reflects standing answer ∧
      Delivered P A b lu (failures answer) s t := by
  obtain ⟨t, hrun, hx, hst⟩ := writeBack_direct (b := b) hP hw
  have hfaithful := hst.faithful
  unfold closeSolve
  cases hfailure : standing.attempt.failure with
  | none =>
    refine ⟨.ok _, _, (bind_ok hrun).trans rfl, ⟨fun _ => ⟨_, rfl, rfl⟩, fun _ h => ?_⟩, hx, hst.site,
      Phase.noConfusion, ⟨hfaithful.jacobian, hfaithful.dated, hfaithful.factors⟩, hst.due⟩
    rw [hfailure] at h
    cases h
  | some reason =>
    refine ⟨.error _, _, (bind_ok hrun).trans rfl, ⟨fun h => ?_, fun reason' h => ⟨_, rfl, ?_⟩⟩, hx,
      hst.site, Phase.noConfusion, ⟨hfaithful.jacobian, hfaithful.dated, hfaithful.factors⟩,
      fun hlasting => ?_⟩
    · rw [hfailure] at h
      cases h
    · rw [hfailure] at h
      exact Option.some.inj h
    · -- The Jacobian of a failed solve is not used again.
      have hdue := hst.due hlasting
      have hle : t.counters.jacobianEvaluations ≤ t.due := Nat.le_add_right _ _
      have hforced : Session.due { t with
          phase := .failed
          work := { t.work with flags.forceNewJacobian := true } } =
          t.counters.jacobianEvaluations + 1 := by
        simp [Session.due, Session.usable]
      change Session.due { t with
        phase := .failed
        work := { t.work with flags.forceNewJacobian := true } } ≤ s.due + 1
      omega

/-- How a solve that starts at `v` ends in `t`, where the root is `r`. -/
structure Arrival (P : Problem (Exact K) σ n) (A : Fin n → Fin n → K) (c : Fin n → K) (τ : K)
    (v r : Fin n → K) (t : Session (Exact K) σ n)
    (answer : Except (Halt (Exact K)) (Report (Exact K))) : Prop where
  /-- A root between the bounds is found in one iteration. -/
  inside : (P.options.enforceBounds = true →
      ∀ i : Fin n, Within t.lower[i] t.upper[i] (finite (r i))) →
    t.x = ofField r ∧ ∃ report, answer = .ok report ∧ report.iterations = 1
  /-- Else the solve goes to the point between them that is nearest to the root, which is good enough
  or not. -/
  outside : P.options.enforceBounds = true →
      (∃ i : Fin n, ¬ Within t.lower[i] t.upper[i] (finite (r i))) →
    ∃ y, t.x = ofField y ∧ (∀ i : Fin n, nearest t.lower[i] t.upper[i] (r i) = finite (y i)) ∧
      ((∃ report, answer = .ok report ∧ report.iterations = 1 ∧ Acceptable A c τ v y) ∨
        ∃ details, answer = .error (.fault (.unconverged details)) ∧
          details.reason = .solutionOutsideBounds ∧ ¬ Acceptable A c τ v y)

theorem Landed.arrival {c v r y : Fin n → K} {lower upper : Vector (Exact K) n}
    (standing : Standing (Exact K)) {answer : Except (Halt (Exact K)) (Report (Exact K))}
    (h : Landed P A c τ v r y lower upper standing.attempt) (hx : t.x = ofField y)
    (hlower : t.lower = lower) (hupper : t.upper = upper) (hanswer : Reflects standing answer)
    (hiterations : standing.report.iterations = standing.attempt.record.iterations) :
    Arrival P A c τ v r t answer := by
  subst hlower
  subst hupper
  have single : ∀ report : Report (Exact K), report.iterations = standing.report.iterations →
      report.iterations = 1 := fun report hreport => (hreport.trans hiterations).trans h.single
  refine ⟨fun hinside => ?_, fun henforced houtside => ?_⟩
  · have hyr : y = r := by
      have hlanding := h.nearest.trans (landing_inside hinside)
      funext i
      have hi := congrArg (fun x => x[i]) hlanding
      simp only [getElem_position, getElem_ofField] at hi
      injection hi
    subst hyr
    obtain ⟨hnone, _⟩ | ⟨_, hne, _⟩ := h.verdict
    · obtain ⟨report, hreport, hcount⟩ := hanswer.converged hnone
      exact ⟨hx, report, hreport, single report hcount⟩
    · exact absurd rfl hne
  · refine ⟨y, hx, fun i => ?_, ?_⟩
    · have hi := congrArg (fun x => x[i]) h.nearest
      unfold Problem.landing at hi
      rw [if_pos henforced] at hi
      simp only [getElem_position, getElem_ofField, Vector.getElem_ofFn] at hi ⊢
      exact hi.symm
    · obtain ⟨hnone, haccept⟩ | ⟨hsome, _, hrefused⟩ := h.verdict
      · obtain ⟨report, hreport, hcount⟩ := hanswer.converged hnone
        exact .inl ⟨report, hreport, single report hcount, haccept⟩
      · obtain ⟨details, hdetails, hreason⟩ := hanswer.stopped _ hsome
        exact .inr ⟨details, hdetails, hreason, hrefused⟩

/-- What a direct solve that starts at `v` comes to: it arrives, unless its Jacobian was rejected. -/
structure DirectSolve (P : Problem (Exact K) σ n) (A : Fin n → Fin n → K) (b : σ → Fin n → K)
    (lu : LU (Exact K) n) (τ : K) (sure : Prop) (v : Fin n → K) (s t : Session (Exact K) σ n)
    (answer : Except (Halt (Exact K)) (Report (Exact K))) : Prop where
  settled : t.Settled P
  faithful : t.work.Faithful A lu
  due : (∀ eventSince, P.variability.reusable eventSince = true) → t.due ≤ s.due + failures answer
  arrival : sure → ∃ r, affine A (b s.model) r = 0 ∧ Arrival P A (b s.model) τ v r t answer

theorem solveDirect_affine (hP : DirectLoop P A b τ δ) (hlu : LU.factor (ofMatrix A) = .ok lu)
    (hs : s.Settled P) (hstarted : s.phase ≠ .untouched) (hw : s.work.Faithful A lu)
    {v h : Fin n → K} (hx : s.x = ofField v)
    (hmoves : Moves P (variableScales P.options.variableScaling s.nominal P.options.tolerance) v h) :
    ∃ answer t, EndsIn (solveDirect P) s answer t ∧
      DirectSolve P A b lu τ (s.reuses P = true ∨ Sure P h) v s t answer := by
  let u : Session (Exact K) σ n := { s.derived P with phase := .iterating }
  have hu : u.Settled P :=
    { hs.derived hP hstarted with
      bounds := fun _ => hs.bounds hstarted
      nominal := fun _ => hs.nominal hstarted
      ready := fun _ => ⟨Phase.noConfusion, rfl, rfl⟩ }
  obtain ⟨attempt, t, r, hrun, hut, hr, hend⟩ :=
    runDirect_affine hP hlu hu rfl ⟨hw.jacobian, hw.dated, hw.factors⟩ hx hmoves
  let standing : Standing (Exact K) :=
    ⟨attempt, Report.empty.add attempt, (P.options.plainTolerances n).step⟩
  obtain ⟨answer, z, hz, hanswer, htz⟩ := closeSolve_direct hP hut.faithful standing
  have hsite : z.site b = u.site b := htz.site.trans hut.site
  have hsolve : EndsIn (solveDirect P) s answer z := by
    unfold solveDirect solveOnce
    refine .after ?_ (setUp_direct hP hs)
    exact .after (v := ()) (t := u) (.after hz hrun) rfl
  have hfinite : allFinite z.x = true := by
    rw [htz.x]
    cases hend with
    | landed y hty _ => exact allFinite_iff.2 ⟨y, hty⟩
    | rejected htx _ _ =>
      rw [htx]
      exact hs.point
  refine ⟨answer, z, hsolve, hu.of_site hsite hfinite htz.started Phase.noConfusion, htz.faithful,
    fun hlasting => (htz.due hlasting).trans (Nat.add_le_add_right (hut.due hlasting) _),
    fun hsure => ⟨r, hr, ?_⟩⟩
  cases hend with
  | landed y hty hlanded =>
    exact hlanded.arrival standing (htz.x.trans hty) (congrArg Site.lower hsite)
      (congrArg Site.upper hsite) hanswer (Nat.zero_add _)
  | rejected _ _ hunsure => exact absurd hsure hunsure

/-- The increments with which a solve that starts in the session would difference the residual. -/
def Session.increments (P : Problem (Exact K) σ n) (s : Session (Exact K) σ n) :
    Vector (Exact K) n :=
  Vector.ofFn fun j => increment s.x[j]
    (variableScales P.options.variableScaling s.nominal P.options.tolerance)[j]
    P.options.differenceStep

omit [IsStrictOrderedRing K] in
theorem increments_eq {v h : Fin n → K} (hx : s.x = ofField v)
    (hmoves : Moves P (variableScales P.options.variableScaling s.nominal P.options.tolerance) v h)
    (j : Fin n) : (s.increments P)[j] = finite (h j) := by
  unfold Session.increments
  rw [getElem_position, Vector.getElem_ofFn, hx]
  exact (congrArg (fun y => increment y _ _) (getElem_ofField v j j.isLt)).trans (hmoves j)

/-- The block's next solve comes by a Jacobian: it uses the one at hand again, or the model has
derivatives, or every unknown is moved from where the solve starts. -/
def Block.ObtainsJacobian (B : Block (Exact K) σ n) : Prop :=
  B.session.reuses B.problem = true ∨ B.problem.derives = true ∨
    ∀ s, prelude B.problem B.session = .ok () s → ∀ j : Fin n, (s.increments B.problem)[j] ≠ 0

theorem Block.solve_direct {B : Block (Exact K) σ n} (hP : DirectLoop B.problem A b τ δ)
    (hlu : LU.factor (ofMatrix A) = .ok lu) (hs : B.session.Settled B.problem)
    (hw : B.session.work.Faithful A lu) :
    ∃ s v answer t, prelude B.problem B.session = .ok () s ∧ s.x = ofField v ∧
      B.solve = (answer, { B with session := t }) ∧
        DirectSolve B.problem A b lu τ B.ObtainsJacobian v B.session t answer := by
  obtain ⟨s, hprelude, hs₀⟩ := prelude_direct hP hs
  obtain ⟨v, hv⟩ := allFinite_iff.1 hs₀.settled.point
  obtain ⟨h, hmoves⟩ : ∃ h, Moves B.problem (variableScales B.problem.options.variableScaling s.nominal
      B.problem.options.tolerance) v h := by
    obtain ⟨size, hsize, _⟩ := variableScales_sizes (τ := τ) hP.magnitudes
      (hs₀.settled.nominal hs₀.started)
    rw [← hP.tolerance] at hsize
    exact ⟨_, moves_of_sizes hsize hP.differenceStep v⟩
  have hreuses : s.reuses B.problem = B.session.reuses B.problem := by
    unfold Session.reuses Session.usable
    rw [hs₀.work, hs₀.eventSince]
  have hsure : B.ObtainsJacobian → s.reuses B.problem = true ∨ Sure B.problem h := fun hobtains =>
    hobtains.imp hreuses.trans (Or.imp_right fun hmoved j hzero => hmoved s hprelude j (by
      rw [increments_eq hv hmoves j, hzero, zero_eq]))
  have hfaithful : s.work.Faithful A lu := hs₀.work ▸ hw
  have hdue : s.due = B.session.due := by
    unfold Session.due Session.usable
    rw [hs₀.work, hs₀.evaluations]
  obtain ⟨answer, t, hends, ht⟩ := solveDirect_affine hP hlu hs₀.settled hs₀.started hfaithful hv
    hmoves
  refine ⟨s, v, answer, t.unmarked, hprelude, hv, Block.perform_of_ends ?_, ?_⟩
  · rw [solveAction_eq]
    refine .after (.always ?_ Session.unmarked) hprelude
    rw [solveByMethod_direct hP.method]
    exact hends
  · refine ⟨{ ht.settled with calm := rfl }, ht.faithful, fun hlasting => ?_, fun hobtains => ?_⟩
    · rw [← hdue]
      exact ht.due hlasting
    · rw [← hs₀.rhs]
      obtain ⟨r, hr, harrival⟩ := ht.arrival (hsure hobtains)
      exact ⟨r, hr, harrival.inside, harrival.outside⟩

/-! ## Histories -/

/-- The blocks that solves, points and changes of the model's state lead to, and how many of the solves
failed. -/
inductive Served (P : Problem (Exact K) σ n) : Block (Exact K) σ n → Nat → Prop where
  | create (m : σ) : Served P ⟨P, Session.fresh n m⟩ 0
  | solve {B : Block (Exact K) σ n} {k : Nat} :
      Served P B k → Served P B.solve.2 (k + failures B.solve.1)
  | setPoint {B : Block (Exact K) σ n} {k : Nat} {x : Array (Exact K)} :
      Served P B k → (∀ a ∈ x, isFinite a = true) → Served P (B.setPoint x).2 k
  | modifyModel {B : Block (Exact K) σ n} {k : Nat} (change : σ → σ) :
      Served P B k → Served P (B.modifyModel change) k

/-- What every history keeps. -/
structure Served.Invariant (P : Problem (Exact K) σ n) (A : Fin n → Fin n → K) (lu : LU (Exact K) n)
    (B : Block (Exact K) σ n) (k : Nat) : Prop where
  problem : B.problem = P
  settled : B.session.Settled P
  faithful : B.session.work.Faithful A lu
  due : (∀ eventSince, P.variability.reusable eventSince = true) → B.session.due ≤ k + 1

theorem Served.invariant (hP : DirectLoop P A b τ δ) (hlu : LU.factor (ofMatrix A) = .ok lu)
    {B : Block (Exact K) σ n} {k : Nat} (h : Served P B k) : Served.Invariant P A lu B k := by
  induction h with
  | create m =>
    refine ⟨rfl, .fresh P m, ⟨fun h => ?_, fun g h => ?_, fun h => ?_⟩, fun _ => Nat.le_refl _⟩
    · cases h
    · cases h
    · cases h
  | @solve B k _ ih =>
    obtain ⟨hproblem, hs, hw, hdue⟩ := ih
    subst hproblem
    obtain ⟨_, _, answer, t, _, _, hsolve, ht⟩ := B.solve_direct hP hlu hs hw
    rw [hsolve]
    refine ⟨rfl, ht.settled, ht.faithful, fun hlasting => ?_⟩
    have hle := hdue hlasting
    have hnext := ht.due hlasting
    dsimp only
    omega
  | @setPoint B k x _ hx ih =>
    obtain ⟨hproblem, hs, hw, hdue⟩ := ih
    subst hproblem
    obtain ⟨halt, hrun⟩ | ⟨t, hrun, ht⟩ := setPoint_direct hP hs hx
    · have hpoint : B.setPoint x = (.error halt, B) := Block.perform_of_ends hrun
      rw [hpoint]
      exact ⟨rfl, hs, hw, hdue⟩
    · have hpoint : B.setPoint x = (.ok (), { B with session := t }) := Block.perform_of_ends hrun
      have hsame : t.due = B.session.due := by
        unfold Session.due Session.usable
        rw [ht.work, ht.evaluations]
      rw [hpoint]
      refine ⟨rfl, ht.settled, ht.work ▸ hw, fun hlasting => ?_⟩
      dsimp only
      rw [hsame]
      exact hdue hlasting
  | modifyModel change _ ih =>
    obtain ⟨hproblem, hs, hw, hdue⟩ := ih
    exact ⟨hproblem, ⟨hs.point, hs.calm, hs.bounds, hs.nominal, hs.pattern, hs.residualScale,
      hs.ready⟩, hw, hdue⟩

/-- With a positive tolerance and increments that are not zero every unknown is moved. -/
theorem Served.obtainsJacobian (hP : DirectLoop P A b τ δ) (hlu : LU.factor (ofMatrix A) = .ok lu)
    {B : Block (Exact K) σ n} {k : Nat} (hB : Served P B k) (hτ : 0 < τ) (hδ : δ ≠ 0) :
    B.ObtainsJacobian := by
  obtain ⟨hproblem, hs, _, _⟩ := hB.invariant hP hlu
  subst hproblem
  obtain ⟨t, hprelude, ht⟩ := prelude_direct hP hs
  obtain ⟨v, hv⟩ := allFinite_iff.1 ht.settled.point
  obtain ⟨size, hsize, hpos⟩ := variableScales_sizes (τ := τ) hP.magnitudes
    (ht.settled.nominal ht.started)
  rw [← hP.tolerance] at hsize
  refine .inr (.inr fun s hrun j => ?_)
  obtain rfl : s = t := by
    rw [hprelude] at hrun
    cases hrun
    rfl
  rw [increments_eq hv (moves_of_sizes hsize hP.differenceStep v) j, zero_eq]
  intro hzero
  have hmove : max |v j| (size j) * δ ≠ 0 :=
    mul_ne_zero (lt_max_of_lt_right (hpos hτ j)).ne' hδ
  injection hzero with hzero
  split at hzero
  · exact hmove (neg_eq_zero.1 hzero)
  · exact hmove hzero

/-- A loop in which nothing but direct solves was asked for, between points that were given and changes
of the model's state. Where the Jacobian cannot change it was evaluated at most once, and once more
after each solve that failed. The next solve comes to the root that belongs to the state of the model,
or to the point between the bounds that is nearest to it. -/
theorem solve_affine_loop (hP : DirectLoop P A b τ δ) (hlu : LU.factor (ofMatrix A) = .ok lu)
    {B : Block (Exact K) σ n} {k : Nat} (hB : Served P B k) :
    (P.variability = .constant ∨ P.variability = .parameter →
      B.session.counters.jacobianEvaluations ≤ k + 1) ∧
    (B.ObtainsJacobian → ∃ s v r, prelude P B.session = .ok () s ∧ s.x = ofField v ∧
      (∀ u, affine A (b B.session.model) u = 0 ↔ u = r) ∧
      Arrival P A (b B.session.model) τ v r B.solve.2.session B.solve.1) := by
  obtain ⟨hproblem, hs, hw, hdue⟩ := hB.invariant hP hlu
  subst hproblem
  constructor
  · intro hvariability
    have hlasting : ∀ eventSince, B.problem.variability.reusable eventSince = true := by
      intro eventSince
      obtain h | h := hvariability
      · rw [h]
        rfl
      · rw [h]
        rfl
    exact (Nat.le_add_right _ _).trans (hdue hlasting)
  · intro hobtains
    obtain ⟨s, v, answer, t, hprelude, hv, hsolve, ht⟩ := B.solve_direct hP hlu hs hw
    obtain ⟨r, hr, harrival⟩ := ht.arrival hobtains
    rw [hsolve]
    refine ⟨s, v, r, hprelude, hv, fun u => ⟨fun hu => ?_, fun hu => hu ▸ hr⟩, harrival⟩
    refine factor_unique hlu fun i => ?_
    have hui := congrFun hu i
    have hri := congrFun hr i
    unfold affine at hui hri
    exact (sub_eq_zero.1 hui).trans (sub_eq_zero.1 hri).symm

end

/-! ## A loop of two unknowns -/

/-- The loop of `pairMatrix` with the given start values, under the direct method. -/
def pairLoop (g : Givens (Exact ℚ) 2) (τ : ℚ) : Problem (Exact ℚ) (Fin 2 → ℚ) 2 where
  label := "loop"
  options :=
    { Options.standard with
      tolerance := finite τ
      differenceStep := finite 1
      method := .direct }
  model := { Model.ofMatrix pairMatrix with start := fun _ c => (.ok g.values, c) }
  auxiliaryCount := 0
  variability := .parameter

theorem pairLoop_direct {g : Givens (Exact ℚ) 2} {v : Fin 2 → ℚ} {τ : ℚ} (hτ : 0 ≤ τ)
    (hg : g.initial = ofField v) (hbounds : ∀ i : Fin 2, g.lower[i] < g.upper[i]) :
    DirectLoop (pairLoop g τ) pairMatrix id τ 1 where
  model :=
    { residual := (Model.ofMatrix_affine pairMatrix).residual
      jacobian := (Model.ofMatrix_affine pairMatrix).jacobian
      directional := (Model.ofMatrix_affine pairMatrix).directional }
  method := rfl
  source := nofun
  tolerance := rfl
  tolerance_nonneg := hτ
  differenceStep := rfl
  magnitudes _ h := by cases h
  start m := ⟨g, v, m, rfl, rfl, hg, hbounds⟩
  writeBack _ m := ⟨m, rfl, rfl⟩

/-- Start values between zero and one. -/
def unitGivens : Givens (Exact ℚ) 2 := ⟨ofField 1, ofField 0, ofField 1, ofField 0⟩

theorem pairLoop_unit : DirectLoop (pairLoop unitGivens (1 / 10)) pairMatrix id (1 / 10) 1 :=
  pairLoop_direct (by decide +kernel) rfl (by decide +kernel)

/-- A block whose first root lay outside of its bounds, so that its solve failed. -/
def turnedBlock : Block (Exact ℚ) (Fin 2 → ℚ) 2 :=
  (Block.solve ⟨pairLoop unitGivens (1 / 10), Session.fresh 2 ![3, 5]⟩).2.modifyModel fun _ => ![2, 2]

set_option maxRecDepth 100000 in
theorem turnedBlock_served : Served (pairLoop unitGivens (1 / 10)) turnedBlock 1 := by
  have hfailed : failures
      (Block.solve ⟨pairLoop unitGivens (1 / 10), Session.fresh 2 ![3, 5]⟩).1 = 1 := by
    decide +kernel
  have hsolved := Served.solve (.create (P := pairLoop unitGivens (1 / 10)) ![3, 5])
  rw [hfailed] at hsolved
  exact hsolved.modifyModel _

theorem solve_affine_loop_turned :
    turnedBlock.session.counters.jacobianEvaluations ≤ 2 ∧
      ∃ s v r, prelude (pairLoop unitGivens (1 / 10)) turnedBlock.session = .ok () s ∧
        s.x = ofField v ∧ (∀ u, affine pairMatrix ![2, 2] u = 0 ↔ u = r) ∧
        Arrival (pairLoop unitGivens (1 / 10)) pairMatrix ![2, 2] (1 / 10) v r
          turnedBlock.solve.2.session turnedBlock.solve.1 := by
  obtain ⟨lu, hlu⟩ := pairMatrix_accepted
  obtain ⟨hcount, hsolve⟩ := solve_affine_loop pairLoop_unit hlu turnedBlock_served
  exact ⟨hcount (.inr rfl),
    hsolve (turnedBlock_served.obtainsJacobian pairLoop_unit hlu (by norm_num) one_ne_zero)⟩

/-- Start values at zero, with nominal values that are zero, and no bounds. -/
def zeroGivens : Givens (Exact ℚ) 2 :=
  ⟨ofField 0, Vector.replicate 2 negInfinity, Vector.replicate 2 posInfinity, ofField 0⟩

set_option maxRecDepth 100000 in
/-- An unknown that is zero is not moved for its quotient if its nominal value and the tolerance are
zero. The solve fails then, although the root lies between the bounds. -/
theorem solve_affine_loop_unmoved :
    DirectLoop (pairLoop zeroGivens 0) pairMatrix id 0 1 ∧
    (∃ lu, LU.factor (ofMatrix pairMatrix) = .ok lu) ∧
    Served (pairLoop zeroGivens 0) ⟨pairLoop zeroGivens 0, Session.fresh 2 ![3, 5]⟩ 0 ∧
    affine pairMatrix ![3, 5] ![4 / 5, 7 / 5] = 0 ∧
    ∃ details, (Block.solve ⟨pairLoop zeroGivens 0, Session.fresh 2 ![3, 5]⟩).1 =
      .error (.fault (.unconverged details)) ∧ details.reason = .jacobian := by
  have hfails : (unconverged? (Block.solve ⟨pairLoop zeroGivens 0, Session.fresh 2 ![3, 5]⟩).1).any
      (fun details => details.reason == .jacobian) = true := by
    decide +kernel
  refine ⟨pairLoop_direct (le_refl 0) rfl (by decide +kernel), pairMatrix_accepted, .create _,
    by decide +kernel, ?_⟩
  obtain ⟨details, hanswer, hreason⟩ := exists_of_unconverged? hfails
  exact ⟨details, hanswer, beq_iff_eq.1 hreason⟩

end AlgebraicLoop
