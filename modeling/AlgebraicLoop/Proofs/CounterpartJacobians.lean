import AlgebraicLoop.Proofs.Counterparts

/-!
# Jacobians of counterpart sessions

An evaluation brings the Jacobians of two sessions into step, whatever the sessions knew of it before.
From then on an iteration keeps, updates or evaluates it in both of them alike.

* `Loose`, `Kept`, `Stale`: how the Jacobians of two sessions are related;
* `Exchange.Fits`: the problems that can be solved in other units;
* `evaluateJacobian_meets`, `prepareJacobian_meets`: the Jacobian of an iteration.
-/

namespace AlgebraicLoop
set_option autoImplicit false

section
variable {α σ ν : Type} [Scalar α] {n : Nat}

/-! ## Relations between what is known of the Jacobian -/

namespace Gear

omit [Scalar α] in
/-- Does the factorization belong to the current Jacobian? -/
def isFactored (g : Gear α n) : Bool :=
  g.factoredGeneration == some g.generation && g.factorization.isPresent

/-- No factorization is younger than the Jacobian. -/
def Sane (g : Gear α n) : Prop := ∀ k, g.factoredGeneration = some k → k ≤ g.generation

/-- The first iteration of an attempt evaluates the Jacobian. -/
def Due (P : Problem α σ n) (g : Gear α n) : Prop :=
  g.forced = true ∨ g.current = false ∨
    (g.atPoint = false ∧ P.variability.reusable g.eventSince = false)

/-- What is known after the Jacobian has changed. -/
def changed (g : Gear α n) (J : Mat α n n) : Gear α n :=
  { g with jacobian := J, generation := g.generation + 1, current := true }

omit [Scalar α] in
theorem Sane.changed {g : Gear α n} (h : g.Sane) (J : Mat α n n) : (g.changed J).Sane :=
  fun k hk => Nat.le_succ_of_le (h k hk)

omit [Scalar α] in
theorem Sane.not_factored {g : Gear α n} (h : g.Sane) (J : Mat α n n) :
    (g.changed J).isFactored = false := by
  unfold isFactored Gear.changed
  cases hf : g.factoredGeneration with
  | none => rfl
  | some k =>
    have hk := h k hf
    have hne : k ≠ g.generation + 1 := by omega
    simp [hne]

end Gear

/-- Two factorizations that give the same step for the same residual. -/
inductive StepsAlike (U : UnitChange α n) : Factorization α n → Factorization α n → Prop
  | same (F : Factorization α n) : U = .none → StepsAlike U F F
  | lu {lu lu' : LU α n} :
      (∀ f, allFinite f = true → lu'.solve ((U.residual f).map (- ·)) = lu.solve (f.map (- ·))) →
      StepsAlike U (.lu lu) (.lu lu')

/-- The residual scales are related; of the Jacobians nothing is known. -/
structure Loose (R : Vector α n → Vector α n → Prop) (g g' : Gear α n) : Prop where
  sane : g.Sane
  sane' : g'.Sane
  scale : R g.residualScale g'.residualScale

/-- The Jacobians correspond, with all marks on them. -/
structure Kept (U : UnitChange α n) (R : Vector α n → Vector α n → Prop) (g g' : Gear α n) : Prop
    extends Loose R g g' where
  jacobian : g'.jacobian = U.matrix g.jacobian
  current : g'.current = g.current
  forced : g'.forced = g.forced
  atPoint : g'.atPoint = g.atPoint
  age : g'.age = g.age
  eventSince : g'.eventSince = g.eventSince
  factored : g'.isFactored = g.isFactored
  alike : g.isFactored = true → StepsAlike U g.factorization g'.factorization

/-- Neither Jacobian can be used. -/
structure Rejected (R : Vector α n → Vector α n → Prop) (g g' : Gear α n) : Prop
    extends Loose R g g' where
  current : g.current = false
  current' : g'.current = false

/-- Neither Jacobian is used before it is evaluated again. -/
structure Stale (P : Problem α σ n) (R : Vector α n → Vector α n → Prop) (g g' : Gear α n) : Prop
    extends Loose R g g' where
  due : (g.current = false ∧ g'.current = false) ∨
    (P.options.residualScaling ≠ .manual ∧ g.Due P ∧ g'.Due P)

/-- What is known of the Jacobian between the attempts of a solve. -/
def Geared (P : Problem α σ n) (U : UnitChange α n) (R : Vector α n → Vector α n → Prop)
    (g g' : Gear α n) : Prop := Kept U R g g' ∨ Stale P R g g'

variable {E : Exchange α σ ν n} {P : Problem α σ n} {U : UnitChange α n}
  {R : Vector α n → Vector α n → Prop} {g g' : Gear α n} {s s' : Session α σ n}

omit [Scalar α] in
theorem Rejected.stale (h : Rejected R g g') : Stale P R g g' :=
  ⟨h.toLoose, .inl ⟨h.current, h.current'⟩⟩

omit [Scalar α] in
theorem Stale.all_due (h : Stale P R g g') : g.Due P ∧ g'.Due P := by
  obtain ⟨hg, hg'⟩ | ⟨_, hg, hg'⟩ := h.due
  · exact ⟨.inr (.inl hg), .inr (.inl hg')⟩
  · exact ⟨hg, hg'⟩

theorem Geared.loose (h : Geared P U R g g') : Loose R g g' := h.elim Kept.toLoose Stale.toLoose

/-- The residual scales correspond. -/
def UnitChange.Scaled (U : UnitChange α n) (w w' : Vector α n) : Prop := w' = U.scales w

/-- A problem that can be solved in other units: its model answers according to what is viewed. Where
the units do change, the choices of the solver do not depend on them. -/
structure Exchange.Fits (E : Exchange α σ ν n) (P : Problem α σ n) : Prop where
  determined : Determined P.model E.view
  update : E.units = .none ∨ P.options.jacobianUpdate = .full ∨ P.options.jacobianUpdate = .reuse ∨
    P.options.jacobianUpdate = .broyden
  check : E.units = .none ∨ P.options.checkJacobian = false
  scaling : E.units = .none ∨ P.options.residualScaling = .automatic

/-! ## Evaluating the Jacobian -/

/-- While matrices are filled and stored as the Jacobians. -/
structure Holding (R : Vector α n → Vector α n → Prop) (A A' : Mat α n n) (g g' : Gear α n) : Prop
    extends Loose R g g' where
  left : g.jacobian = A
  right : g'.jacobian = A'

theorem Mirror.holding (h : Mirror E (Loose R) s s') :
    Mirror E (Holding R s.work.jacobian s'.work.jacobian) s s' :=
  h.mono fun hg => ⟨hg, rfl, rfl⟩

theorem filling_storeJacobian : Filling E (Holding R) (Loose R) storeJacobian where
  loosen _ _ _ _ h := h.toLoose
  publish _ _ _ _ _ _ h :=
    ⟨h.core, ⟨⟨h.gear.sane, h.gear.sane', h.gear.scale⟩, rfl, rfl⟩, h.view, h.points⟩

/-- The Jacobian that was computed, in both units, is the one that was stored. -/
def Computed (E : Exchange α σ ν n) (R : Vector α n → Vector α n → Prop)
    (v v' : Except Mishap (Mat α n n)) (t t' : Session α σ n) : Prop :=
  v' = v.map E.units.matrix ∧ Mirror E (Loose R) t t' ∧
    ∀ B, v = .ok B → Mirror E (Holding R B (E.units.matrix B)) t t'

theorem analyticJacobian_meets {J : Vector α n → σ → Writing α σ n} {x : Vector α n}
    (hJ : WrittenBy E.view (J x)) (h : Mirror E (Loose R) s s') :
    Meets (Computed E R) (Mirror E (Loose R)) (analyticJacobian J x s)
      (analyticJacobian (fun x m => (J x m).map E.units.matrix) x s') := by
  let J' : Vector α n → σ → Writing α σ n := fun x m => (J x m).map E.units.matrix
  -- The two stored matrices need not correspond: a successful answer is the same for both.
  have hanswer : ((J' x s'.model).answer s'.work.jacobian).1 =
      ((J x s.model).answer s.work.jacobian).1.map E.units.matrix := by
    rw [Writing.answer_map, hJ.answer s.work.jacobian s'.work.jacobian _ _ h.view]
  have hview : E.view ((J x s.model).answer s.work.jacobian).2 =
      E.view ((J' x s'.model).answer s'.work.jacobian).2 := by
    rw [Writing.answer_map, hJ.keeps, hJ.keeps, h.view]
  have hwritten : Mirror E (Loose R) (s.written J x) (s'.written J' x) := by
    have hcalled := h.called (.jacobian x ((J x s.model).answer s.work.jacobian).1)
      (.jacobian x ((J' x s'.model).answer s'.work.jacobian).1) rfl hview
    exact ⟨hcalled.core, ⟨hcalled.gear.sane, hcalled.gear.sane', hcalled.gear.scale⟩, hcalled.view,
      hcalled.points⟩
  rw [analyticJacobian_apply, analyticJacobian_apply]
  change Meets _ _ _ (settleAnswer .differentiate ((J' x s'.model).answer s'.work.jacobian).1
    (s'.written J' x))
  cases hends : ((J x s.model).answer s.work.jacobian).1 with
  | error failure =>
    rw [hends] at hanswer
    rw [hanswer]
    cases failure with
    | fatal reason => exact ⟨rfl, hwritten⟩
    | recoverable reason => exact ⟨rfl, hwritten, nofun⟩
  | ok A =>
    rw [hends] at hanswer
    rw [hanswer]
    refine ⟨rfl, hwritten, fun B hB => ?_⟩
    cases hB
    exact hwritten.mono fun hg => ⟨hg, Writing.left_of_answer hends, Writing.left_of_answer hanswer⟩

theorem directionalJacobian_meets {d d' : Vector α n → Vector α n → Answer σ (Vector α n)}
    {x : Vector α n} (hd : ∀ direction, SeenBy E.view (d x direction))
    (hd' : ∀ direction m, d' x direction m =
      ((d x direction m).1.map E.units.residual, (d x direction m).2))
    {A A' : Mat α n n} (h : Mirror E (Holding R A A') s s') :
    Meets (Computed E R) (Mirror E (Loose R)) (directionalJacobian d x A s)
      (directionalJacobian d' x A' s') :=
  fillColumns_meets filling_storeJacobian
    (fun _ _ _ => request_echoes (hd _) (hd' _) .differentiate (fun _ => rfl) fun _ => rfl)
    (filled_all E.units A A') h

theorem groupedJacobian_meets (hP : Determined P.model E.view) (pattern : Pattern n n)
    (x f : Vector α n) (h : Mirror E (Loose R) s s') :
    Meets (Computed E R) (Mirror E (Loose R)) (groupedJacobian P pattern x f s)
      (groupedJacobian (E.problem P) pattern x (E.units.residual f) s') := by
  unfold groupedJacobian
  rw [get_bind_apply, get_bind_apply, h.variableScale]
  have hgroups := compressedDifferences_meets filling_storeJacobian hP s.work.variableScale pattern
    x f (filled_groups E.units pattern _ _) h.holding
  refine hgroups.bind fun v v' t t' ⟨hv, ht, hfound⟩ => ?_
  subst hv
  cases v with
  | ok B => exact ⟨rfl, ht, hfound⟩
  | error mishap =>
    have hnoted : Mirror E (Loose R)
        { t with notices := t.notices.push (.compressedFailed mishap) }
        { t' with notices := t'.notices.push (.compressedFailed mishap) } :=
      ⟨ht.core, ht.gear, ht.view, ht.points⟩
    dsimp only [Except.map]
    rw [notify_bind_apply, notify_bind_apply, get_bind_apply, get_bind_apply, ht.variableScale]
    exact differences_meets filling_storeJacobian hP _ _ x f hnoted.holding

theorem isTwoSided_mirror {T : Gear α n → Gear α n → Prop} (h : Mirror E T s s') (o : Options α)
    (x : Vector α n) : isTwoSided o s'.work x = isTwoSided o s.work x := by
  have hnorm : s'.work.lastNorm = s.work.lastNorm := congrArg Core.lastNorm h.core
  have hretrying : s'.work.retrying = s.work.retrying := congrArg Core.retrying h.core
  have hnear : ∀ i y reach, s'.work.box.isNearBound i y reach = s.work.box.isNearBound i y reach := by
    intro i y reach
    rw [← Box.isNearBound_blank, h.box, Box.isNearBound_blank]
  unfold isTwoSided
  simp only [h.variableScale, hnear, hnorm, hretrying]

theorem sourceJacobian_meets (hP : Determined P.model E.view) (x f : Vector α n)
    (h : Mirror E (Loose R) s s') :
    Meets (fun v v' t t' => v'.2 = v.2 ∧ Computed E R v.1 v'.1 t t') (Mirror E (Loose R))
      (sourceJacobian P x f s) (sourceJacobian (E.problem P) x (E.units.residual f) s') := by
  have pair : ∀ {a a' : Action α σ n (Except Mishap (Mat α n n))} (b : Bool),
      Meets (Computed E R) (Mirror E (Loose R)) (a s) (a' s') →
      Meets (fun v v' t t' => v'.2 = v.2 ∧ Computed E R v.1 v'.1 t t') (Mirror E (Loose R))
        ((a >>= fun status => pure (status, b)) s) ((a' >>= fun status => pure (status, b)) s') :=
    fun b ha => ha.bind fun v v' t t' hv => ⟨rfl, hv⟩
  have differenced : Meets (fun v v' t t' => v'.2 = v.2 ∧ Computed E R v.1 v'.1 t t')
      (Mirror E (Loose R)) (differencedJacobian P x f s.work s)
      (differencedJacobian (E.problem P) x (E.units.residual f) s'.work s') := by
    have hpattern : s'.work.pattern = s.work.pattern := congrArg Core.pattern h.core
    have hoptions : (E.problem P).options = P.options := rfl
    unfold differencedJacobian
    rw [hpattern, hoptions]
    cases s.work.pattern with
    | some pattern => exact pair false (groupedJacobian_meets hP pattern x f h)
    | none =>
      dsimp only
      rw [h.variableScale, isTwoSided_mirror h]
      exact pair false (differences_meets filling_storeJacobian hP _ _ x f h.holding)
  unfold sourceJacobian exactJacobian?
  rw [get_bind_apply, get_bind_apply]
  by_cases hsource : P.options.jacobianSource = .analytic
  · have hsource' : (E.problem P).options.jacobianSource = .analytic := hsource
    rw [if_pos hsource, if_pos hsource']
    cases hJ : P.model.jacobian with
    | none =>
      have hJ' : (E.problem P).model.jacobian = none := congrArg (Option.map _) hJ
      rw [hJ']
      exact differenced
    | some J =>
      have hJ' : (E.problem P).model.jacobian = some fun x m => (J x m).map E.units.matrix :=
        congrArg (Option.map _) hJ
      rw [hJ']
      exact pair true (analyticJacobian_meets (hP.jacobian J hJ x) h)
  · have hsource' : ¬ (E.problem P).options.jacobianSource = .analytic := hsource
    rw [if_neg hsource, if_neg hsource']
    cases hd : P.model.directional with
    | none =>
      have hd' : (E.problem P).model.directional = none := congrArg (Option.map _) hd
      rw [hd']
      exact differenced
    | some d =>
      have hd' : (E.problem P).model.directional = some fun x direction m =>
          ((d x direction m).1.map E.units.residual, (d x direction m).2) :=
        congrArg (Option.map _) hd
      rw [hd']
      exact pair true
        (directionalJacobian_meets (hP.directional d hd x) (fun _ _ => rfl) h.holding)

/-- Jacobians that have just changed are in step, whatever was known before. -/
theorem Loose.changed (h : Loose R g g') (J : Mat α n n) (age : Nat)
    (forced atPoint eventSince : Bool) :
    Kept U R { g.changed J with age, forced, atPoint, eventSince }
      { g'.changed (U.matrix J) with age, forced, atPoint, eventSince } where
  sane := h.sane.changed J
  sane' := h.sane'.changed (U.matrix J)
  scale := h.scale
  jacobian := rfl
  current := rfl
  forced := rfl
  atPoint := rfl
  age := rfl
  eventSince := rfl
  factored := (h.sane'.not_factored (U.matrix J)).trans (h.sane.not_factored J).symm
  alike hfactored := by
    have hnot := h.sane.not_factored J
    exact absurd (hnot.symm.trans hfactored) Bool.false_ne_true

theorem acceptJacobian_meets {A : Mat α n n}
    (h : Mirror E (Holding R A (E.units.matrix A)) s s') :
    Meets (fun _ _ => Mirror E (Kept E.units R)) (Mirror E (Loose R)) (acceptJacobian s)
      (acceptJacobian s') := by
  refine ⟨h.core, ?_, h.view, h.points⟩
  have hkept := h.gear.toLoose.changed (U := E.units) A 0 false true false
  rw [← h.gear.right, ← h.gear.left] at hkept
  exact hkept

theorem rejectJacobian_meets (h : Mirror E (Loose R) s s') :
    Meets (fun _ _ => Mirror E (Rejected R)) (Mirror E (Loose R)) (rejectJacobian s)
      (rejectJacobian s') :=
  ⟨h.core, ⟨⟨h.gear.sane, h.gear.sane', h.gear.scale⟩, rfl, rfl⟩, h.view, h.points⟩

/-- The same entries are found to disagree. -/
theorem compareEntry_echoes {T : Gear α n → Gear α n → Prop} (tolerance : α) (J D : Mat α n n)
    (i j : Fin n) :
    Echoes E T id (compareEntry tolerance J D i j) (compareEntry tolerance J D i j) := by
  intro s s' h
  unfold compareEntry
  split
  · rw [modifyWork_bind_apply, modifyWork_bind_apply]
    have hcore := congrArg (fun c : Core α n =>
      { c with jacobianMismatches := c.jacobianMismatches + 1 }) h.core
    exact ⟨rfl, hcore, h.gear, h.view, h.points⟩
  · exact ⟨rfl, h⟩

theorem forM_echoes {ι : Type} {T : Gear α n → Gear α n → Prop} {f f' : ι → Action α σ n Unit}
    (hf : ∀ i, Echoes E T id (f i) (f' i)) (l : List ι) : Echoes E T id (l.forM f) (l.forM f') := by
  induction l with
  | nil => exact Echoes.value rfl
  | cons i rest ih => exact (hf i).seq fun _ => ih

theorem compareWithDifferences_echoes (hE : E.units = .none) (hP : Determined P.model E.view)
    (x f : Vector α n) :
    Echoes E (Kept E.units R) id (compareWithDifferences P x f)
      (compareWithDifferences (E.problem P) x (E.units.residual f)) := by
  intro s s' h
  unfold compareWithDifferences
  rw [get_bind_apply, get_bind_apply, h.variableScale]
  have hT : Filling E (fun _ _ => Kept E.units R) (Kept E.units R)
      (fun _ => (pure () : Action α σ n Unit)) := ⟨fun _ _ _ _ h => h, fun _ _ _ _ _ _ h => h⟩
  have hjacobian : s'.work.jacobian = s.work.jacobian :=
    h.gear.jacobian.trans (by rw [hE, UnitChange.none_matrix]; rfl)
  refine (differences_meets hT hP s.work.variableScale (fun _ => false) x f h).bind
    fun v v' t t' ⟨hv, ht, _⟩ => ?_
  subst hv
  cases v with
  | error _ => exact ⟨rfl, ht⟩
  | ok D =>
    dsimp only [Except.map]
    rw [hE, UnitChange.none_matrix, ← hE, hjacobian]
    exact forM_echoes (fun j => forM_echoes (fun i => compareEntry_echoes _ _ D i j) _) _ t t' ht

/-- A fresh Jacobian brings two sessions into step, or neither has a Jacobian that can be used. -/
def FreshInStep (E : Exchange α σ ν n) (R : Vector α n → Vector α n → Prop) (v v' : Except Mishap Unit)
    (t t' : Session α σ n) : Prop :=
  v' = v ∧ (v = .ok () → Mirror E (Kept E.units R) t t') ∧
    ∀ mishap, v = .error mishap → Mirror E (Rejected R) t t'

theorem evaluateJacobian_meets (hE : E.Fits P) (x f : Vector α n) (h : Mirror E (Loose R) s s') :
    Meets (FreshInStep E R) (Mirror E (Loose R)) (evaluateJacobian P x f s)
      (evaluateJacobian (E.problem P) x (E.units.residual f) s') := by
  refine (sourceJacobian_meets hE.determined x f h).bind fun v v' t t' hv => ?_
  obtain ⟨status, exact⟩ := v
  obtain ⟨status', exact'⟩ := v'
  obtain ⟨hexact, hstatus, ht, hfound⟩ := hv
  dsimp only at hexact hstatus hfound
  subst hexact hstatus
  cases status with
  | error mishap =>
    refine (rejectJacobian_meets ht).bind fun _ _ u u' hu => ⟨rfl, nofun, fun _ _ => hu⟩
  | ok A =>
    dsimp only [Except.map]
    rw [E.units.lastIllegalEntry_matrix]
    cases lastIllegalEntry? A with
    | some cell =>
      refine (rejectJacobian_meets ht).bind fun _ _ u u' hu => ⟨rfl, nofun, fun _ _ => hu⟩
    | none =>
      refine (acceptJacobian_meets (hfound A rfl)).bind fun _ _ u u' hu => ?_
      have hoptions : (E.problem P).options = P.options := rfl
      rw [hoptions]
      split
      · next hcheck =>
        have hunits : E.units = .none := by
          obtain hunits | hoff := hE.check
          · exact hunits
          · simp [hoff] at hcheck
        have hcompare := compareWithDifferences_echoes hunits hE.determined x f u u' hu
        refine (hcompare.mono (fun _ _ _ _ hv => hv) fun _ _ hw =>
          hw.mono Kept.toLoose).bind fun _ _ w w' ⟨_, hw⟩ => ⟨rfl, fun _ => hw, nofun⟩
      · exact ⟨rfl, fun _ => hu, nofun⟩

/-! ## The Jacobian of an iteration -/

/-- What is to be done about the Jacobian, in other units. -/
def UnitChange.plan (U : UnitChange α n) : JacobianPlan α n → JacobianPlan α n
  | .alreadyFresh => .alreadyFresh
  | .evaluate => .evaluate
  | .keep => .keep
  | .update J => .update (U.matrix J)

theorem secantUpdate_mirror (hE : E.Fits P) (f : Vector α n)
    (h : Mirror E (Kept E.units E.units.Scaled) s s') :
    secantUpdate? P.options.jacobianUpdate s'.work (E.units.residual f) =
      (secantUpdate? P.options.jacobianUpdate s.work f).map E.units.matrix := by
  have hjacobian : s'.work.jacobian = E.units.matrix s.work.jacobian := h.gear.jacobian
  have hscale : s'.work.residualScale = E.units.scales s.work.residualScale := h.gear.scale
  unfold secantUpdate?
  rw [h.history, hjacobian, h.variableScale, hscale]
  cases s.work.history with
  | none => rfl
  | some past =>
    obtain ⟨step, old⟩ := past
    dsimp only [Option.map, UnitChange.past]
    obtain hunits | hupdate | hupdate | hupdate := hE.update
    · rw [hunits]
      simp only [UnitChange.none_residual, UnitChange.none_matrix, UnitChange.none_scales]
      cases P.options.jacobianUpdate with
      | full | reuse => rfl
      | broyden => exact (broyden ..).map_id'.symm
      | sparseBroyden => exact (sparseBroyden ..).map_id'.symm
      | modifiedBfgs => exact (modifiedBfgs ..).map_id'.symm
    · rw [hupdate]
    · rw [hupdate]
    · rw [hupdate]
      exact E.units.broyden_matrix s.work.jacobian step old f s.work.variableScale

theorem planJacobian_mirror (hE : E.Fits P) (iteration : Nat) (f : Vector α n)
    (h : Mirror E (Kept E.units E.units.Scaled) s s') :
    planJacobian P.options P.variability s'.eventSinceJacobian s'.work iteration
        (E.units.residual f) =
      E.units.plan
        (planJacobian P.options P.variability s.eventSinceJacobian s.work iteration f) := by
  have hforced : s'.work.flags.forceNewJacobian = s.work.flags.forceNewJacobian := h.gear.forced
  have hcurrent : s'.work.flags.jacobianCurrent = s.work.flags.jacobianCurrent := h.gear.current
  have hpoint : s'.work.jacobianAtPoint = s.work.jacobianAtPoint := h.gear.atPoint
  have hage : s'.work.jacobianAge = s.work.jacobianAge := h.gear.age
  have hevent : s'.eventSinceJacobian = s.eventSinceJacobian := h.gear.eventSince
  unfold planJacobian
  rw [hforced, hcurrent, hpoint, hage, hevent, secantUpdate_mirror hE f h]
  split
  · rfl
  · split
    · rfl
    · split
      · split <;> rfl
      · split
        · rfl
        · split
          · rfl
          · split
            · rfl
            · split
              · rfl
              · cases secantUpdate? P.options.jacobianUpdate s.work f <;> rfl

theorem planJacobian_evaluates {iteration : Nat} (hiteration : iteration = 1) (f : Vector α n)
    (h : s.gear.Due P) :
    planJacobian P.options P.variability s.eventSinceJacobian s.work iteration f = .evaluate := by
  obtain hforced | hcurrent | ⟨hpoint, hreusable⟩ := h
  · exact if_pos (.inl hforced)
  · refine if_pos (.inr ?_)
    have hcurrent : s.work.flags.jacobianCurrent = false := hcurrent
    rw [hcurrent]
    rfl
  · have hpoint : ¬ s.work.jacobianAtPoint = true := Bool.eq_false_iff.1 hpoint
    have hreusable : ¬ P.variability.reusable s.eventSinceJacobian = true :=
      Bool.eq_false_iff.1 hreusable
    unfold planJacobian
    rw [if_neg hpoint, if_pos hiteration, if_neg hreusable]
    split <;> rfl

/-- What is known of the Jacobian before an iteration: one that is stale is evaluated in the first
iteration of an attempt. -/
def Ready (P : Problem α σ n) (U : UnitChange α n) (iteration : Nat) (g g' : Gear α n) : Prop :=
  Kept U U.Scaled g g' ∨ iteration = 1 ∧ Stale P U.Scaled g g'

theorem Ready.loose {iteration : Nat} (h : Ready P U iteration g g') : Loose U.Scaled g g' :=
  h.elim Kept.toLoose fun h => h.2.toLoose

/-- The Jacobian is made usable in both sessions, or in neither. -/
def Prepared (E : Exchange α σ ν n) (v v' : Except Mishap Bool) (t t' : Session α σ n) : Prop :=
  v' = v ∧ (∀ fresh, v = .ok fresh → Mirror E (Kept E.units E.units.Scaled) t t') ∧
    ∀ mishap, v = .error mishap → Mirror E (Rejected E.units.Scaled) t t'

theorem Prepared.of_ok {fresh : Bool} {t t' : Session α σ n}
    (h : Mirror E (Kept E.units E.units.Scaled) t t') :
    Prepared E (.ok fresh) (.ok fresh) t t' :=
  ⟨rfl, fun _ _ => h, fun _ h => by cases h⟩

theorem prepareJacobian_meets (hE : E.Fits P) (iteration : Nat) (x f : Vector α n)
    (h : Mirror E (Ready P E.units iteration) s s') :
    Meets (Prepared E) (Mirror E (Loose E.units.Scaled)) (prepareJacobian P iteration x f s)
      (prepareJacobian (E.problem P) iteration x (E.units.residual f) s') := by
  have evaluated : Meets (Prepared E) (Mirror E (Loose E.units.Scaled)) (renewJacobian P x f s)
      (renewJacobian (E.problem P) x (E.units.residual f) s') := by
    have hloose := h.mono Ready.loose
    refine (evaluateJacobian_meets hE x f hloose).bind fun v v' t t' hevaluated => ?_
    obtain ⟨rfl, hkept, hrejected⟩ := hevaluated
    cases v' with
    | ok _ => exact .of_ok (hkept rfl)
    | error mishap => exact ⟨rfl, fun _ h => (by cases h), fun _ _ => hrejected mishap rfl⟩
  unfold prepareJacobian
  rw [get_bind_apply, get_bind_apply]
  have hoptions : (E.problem P).options = P.options := rfl
  have hvariability : (E.problem P).variability = P.variability := rfl
  rw [hoptions, hvariability]
  obtain hkept | ⟨hiteration, hstale⟩ := h.gear
  · have h : Mirror E (Kept E.units E.units.Scaled) s s' := h.mono fun _ => hkept
    rw [planJacobian_mirror hE iteration f h]
    cases planJacobian P.options P.variability s.eventSinceJacobian s.work iteration f with
    | alreadyFresh => exact Prepared.of_ok h
    | evaluate => exact evaluated
    | keep =>
      have hage : s'.work.jacobianAge = s.work.jacobianAge := hkept.age
      dsimp only [UnitChange.plan]
      rw [modifyWork_bind_apply, modifyWork_bind_apply, hage]
      refine Prepared.of_ok ⟨h.core, ?_, h.view, h.points⟩
      exact { hkept with age := rfl }
    | update J =>
      have hage : s'.work.jacobianAge = s.work.jacobianAge := hkept.age
      have hchanged := hkept.toLoose.changed (U := E.units) J (s.gear.age + 1) s.gear.forced
        s.gear.atPoint s.gear.eventSince
      dsimp only [UnitChange.plan]
      rw [modifyWork_bind_apply, modifyWork_bind_apply, hage]
      refine Prepared.of_ok ⟨h.core, ?_, h.view, h.points⟩
      exact { hchanged with
        forced := hkept.forced
        atPoint := hkept.atPoint
        eventSince := hkept.eventSince }
  · rw [planJacobian_evaluates hiteration f hstale.all_due.1,
      planJacobian_evaluates hiteration (E.units.residual f) hstale.all_due.2]
    exact evaluated

end

end AlgebraicLoop
