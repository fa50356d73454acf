import AlgebraicLoop.Proofs.CounterpartSteps
import AlgebraicLoop.Proofs.Phases

/-!
# Solves of counterpart sessions

A root that is refined between two points is the same in all units, as the search only looks at signs
and ratios. So two solves make the same attempts once they are opened, whatever was known of the
Jacobian before.

* `findRoot_echoes`, `refineAttempt_meets`: the refinement of a single unknown;
* `firstAttempt_unless`, `tryDescent_unless`, `tryRescaled_unless`, `tryNominal_unless`: the attempts;
* `afterOpening_unless`: all that follows the opening of a solve.
-/

namespace AlgebraicLoop
set_option autoImplicit false

section
variable {α σ ν : Type} [Scalar α] {n : Nat} {E : Exchange α σ ν n} {P : Problem α σ n}
  {s s' : Session α σ n}

/-! ## Refined roots -/

/-- What a search came to, its value in other units. -/
def UnitChange.found (U : UnitChange α n) (r : RootFound α) : RootFound α :=
  { r with point := U.first.sample r.point }

theorem UnitChange.getElem_zero_residual (U : UnitChange α n) (h : n = 1) (f : Vector α n) :
    getElem (U.residual f) 0 (pos_of_one h) = U.first.map (getElem f 0 (pos_of_one h)) := by
  subst h
  simp [UnitChange.first]

section
variable {T : Gear α n → Gear α n → Prop}

theorem evaluateSingle_echoes (hP : Determined P.model E.view) (h : n = 1) (x : α) :
    Echoes E T (Except.map E.units.first.map) (evaluateSingle P h x).run
      (evaluateSingle (E.problem P) h x).run := by
  refine (evaluate_echoes hP (Vector.replicate n x)).seq fun answer => ?_
  cases answer with
  | ok f => exact Echoes.value (congrArg Except.ok (E.units.getElem_zero_residual h f))
  | error _ => exact Echoes.value rfl

theorem rootSearch_echoes (hP : Determined P.model E.view) (h : n = 1) (xtol : α)
    (budget done : Nat) (search : RootSearch α) :
    Echoes E T (Except.map E.units.found)
      (RootSearch.run (evaluateSingle P h) xtol budget done search).run
      (RootSearch.run (evaluateSingle (E.problem P) h) xtol budget done
        (E.units.first.search search)).run := by
  induction budget generalizing done search with
  | zero => exact Echoes.value rfl
  | succ budget ih =>
    unfold RootSearch.run
    dsimp only
    rw [E.units.first.arrange_search, E.units.first.finished_search, E.units.first.probe_search]
    split
    · exact Echoes.value rfl
    · rw [ExceptT.run_bind, ExceptT.run_bind]
      refine (evaluateSingle_echoes hP h _).seq fun answer => ?_
      cases answer with
      | ok value =>
        have hnext := ih (done + 1) (search.arrange.advance xtol value)
        rw [← E.units.first.advance_search] at hnext
        exact hnext
      | error mishap => exact Echoes.value rfl

theorem findRoot_echoes (hP : Determined P.model E.view) (h : n = 1) (a b : Sample α) (xtol : α) :
    Echoes E T (Except.map E.units.found) (findRoot (evaluateSingle P h) a b xtol).run
      (findRoot (evaluateSingle (E.problem P) h) (E.units.first.sample a) (E.units.first.sample b)
        xtol).run := by
  have hzero : ((E.units.first.sample a).f == 0) = (a.f == 0) := E.units.first.map_beq_zero a.f
  unfold findRoot
  rw [hzero]
  split
  · exact Echoes.value rfl
  · exact rootSearch_echoes hP h xtol rootBudget 0 (RootSearch.start a b)

end

/-- The point is left, so that the Jacobian no longer belongs to it. -/
theorem Geared.left {g g' : Gear α n} {U : UnitChange α n} {R : Vector α n → Vector α n → Prop}
    (h : Geared P U R g g') :
    Geared P U R { g with atPoint := false } { g' with atPoint := false } := by
  have due : ∀ g : Gear α n, g.Due P → ({ g with atPoint := false } : Gear α n).Due P :=
    fun g hg => hg.imp_right fun hg => hg.imp_right fun hg => ⟨rfl, hg.2⟩
  obtain hkept | hstale := h
  · exact .inl { hkept with atPoint := rfl }
  · refine .inr ⟨⟨hstale.sane, hstale.sane', hstale.scale⟩, ?_⟩
    exact hstale.due.imp_right fun hdue => ⟨hdue.1, due g hdue.2.1, due g' hdue.2.2⟩

omit [Scalar α] in
theorem moveToRoot_apply (root : Sample α) (iterations : Nat) (s : Session α σ n) :
    moveToRoot root iterations s = .ok () { s with
      x := Vector.replicate n root.x
      work := { s.work with jacobianAtPoint := false }
      notices := s.notices.push (.refined root.x root.f iterations) } := rfl

theorem refineRoot_meets (hP : Determined P.model E.view) (h : n = 1) (attempt : Attempt α)
    (hs : Mirror E (Geared P E.units E.units.Scaled) s s') :
    Meets (Attempted E P) (Mirror E (Loose E.units.Scaled)) (refineRoot P h attempt s)
      (refineRoot (E.problem P) h attempt s') := by
  unfold refineRoot
  rw [get_bind_apply, get_bind_apply, hs.bracket, E.units.first.interval_bracket]
  cases s.bracket.interval? with
  | none =>
    dsimp only [Option.map]
    split
    · exact ⟨rfl, hs.core, hs.gear, hs.view, hs.points⟩
    · exact ⟨rfl, hs⟩
  | some ends =>
    obtain ⟨below, above⟩ := ends
    have hsearch := (findRoot_echoes (T := Geared P E.units E.units.Scaled) hP h below above 0 s s'
      hs).mono (fun _ _ _ _ hv => hv) fun _ _ ht => ht.mono Geared.loose
    refine hsearch.bind fun v v' t t' ⟨hv, ht⟩ => ?_
    subst hv
    cases v with
    | error _ => exact ⟨rfl, ht⟩
    | ok found =>
      dsimp only [Except.map, UnitChange.found]
      split
      · rw [bind_ok (moveToRoot_apply ..), bind_ok (moveToRoot_apply ..), get_bind_apply,
          get_bind_apply]
        have hcore := congrArg (fun c : Core α n =>
          { c with x := Vector.replicate n found.point.x }) ht.core
        have hscale : t'.work.residualScale = E.units.scales t.work.residualScale :=
          ht.gear.loose.scale
        have hattempt : refinedAttempt { t'.work with jacobianAtPoint := false } h
            (E.units.first.sample found.point) attempt =
              refinedAttempt { t.work with jacobianAtPoint := false } h found.point attempt := by
          subst h
          unfold refinedAttempt
          simp only [hscale, UnitChange.getElem_scales, UnitChange.first, Stretch.sample]
          rw [dif_pos Nat.one_pos, E.units.grow_mul_shrink]
        refine ⟨Prod.ext hattempt rfl, hcore, ht.gear.left, ht.view, ht.points⟩
      · exact ⟨rfl, ht⟩

theorem refineAttempt_meets (hP : Determined P.model E.view) (attempt : Attempt α)
    (h : Mirror E (Geared P E.units E.units.Scaled) s s') :
    Meets (Attempted E P) (Mirror E (Loose E.units.Scaled)) (refineAttempt P attempt s)
      (refineAttempt (E.problem P) attempt s') := by
  have hoptions : (E.problem P).options = P.options := rfl
  unfold refineAttempt
  rw [hoptions]
  split
  · split
    · next hn => exact refineRoot_meets hP hn attempt h
    · exact ⟨rfl, h⟩
  · exact ⟨rfl, h⟩

/-! ## The attempts of a solve -/

theorem closed_grows_setting (P : Problem α σ n) :
    Closed P true (Session.setting P) fun _ a => Follows Grows a := closed_grows P true _

theorem firstAttempt_unless (hE : E.Fits P)
    (h : Mirror E (Geared P E.units E.units.Scaled) s s') :
    Unless E (Attempted E P) (Mirror E (Loose E.units.Scaled)) (firstAttempt P s)
      (firstAttempt (E.problem P) s') := by
  have hC := fun Q : Problem α σ n => closed_grows_stage Q
  have rest : ∀ (Q : Problem α σ n) (attempt : Attempt α), Follows Grows (endFirst Q attempt) := by
    intro Q attempt
    refine (closed_grows_setting Q).seq ((closed_grows_setting Q).work (fun _ => ⟨rfl, rfl, rfl, rfl⟩)
      (fun _ _ _ => rfl) fun _ => rfl) fun _ => ?_
    exact (hC Q).seq ((hC Q).refineAttempt (fun _ hf s => hf s s) attempt) fun _ => (hC Q).value _
  have hcore := congrArg (fun c : Core α n => { c with firstAttempt := true, retrying := false })
    h.core
  have hbegun : Mirror E (Geared P E.units E.units.Scaled)
      { s with work := { s.work with firstAttempt := true, retrying := false } }
      { s' with work := { s'.work with firstAttempt := true, retrying := false } } :=
    ⟨hcore, h.gear, h.view, h.points⟩
  rw [firstAttempt_eq, firstAttempt_eq, modifyWork_bind_apply, modifyWork_bind_apply]
  refine (runDamped_unless hE (P.options.firstTolerances n) false hbegun).bind
    (fun v v' t t' hattempted => ?_) (rest P) (rest (E.problem P))
  obtain ⟨rfl, ht⟩ := hattempted
  have hcore := congrArg (fun c : Core α n => { c with firstAttempt := false }) ht.core
  have hended : Mirror E (Geared P E.units E.units.Scaled)
      { t with work := { t.work with firstAttempt := false } }
      { t' with work := { t'.work with firstAttempt := false } } :=
    ⟨hcore, ht.gear, ht.view, ht.points⟩
  unfold endFirst
  rw [modifyWork_bind_apply, modifyWork_bind_apply]
  refine ((refineAttempt_meets hE.determined v' hended).bind fun v v' u u' hrefined => ?_).unless
  obtain ⟨rfl, hu⟩ := hrefined
  exact ⟨rfl, hu⟩

theorem tryDescent_unless (hE : E.Fits P) (standing : Standing α)
    (h : Mirror E (Geared P E.units E.units.Scaled) s s') :
    Unless E (Attempted E P) (Mirror E (Loose E.units.Scaled)) (tryDescent P standing s)
      (tryDescent (E.problem P) standing s') := by
  have hoptions : (E.problem P).options = P.options := rfl
  unfold tryDescent
  rw [hoptions]
  split
  · rw [notify_bind_apply, notify_bind_apply]
    refine (runDamped_unless hE (P.options.firstTolerances n) true
      (h.noted .descentRetry .descentRetry)).bind (fun v v' t t' ⟨hv, ht⟩ => ?_)
      (fun _ t => Grows.refl t) fun _ t => Grows.refl t
    subst hv
    exact .inr ⟨rfl, ht⟩
  · exact .inr ⟨rfl, h⟩

theorem rescaledRetry_unless (hE : E.Fits P)
    (h : Mirror E (Geared P E.units E.units.Scaled) s s') :
    Unless E (Attempted E P) (Mirror E (Loose E.units.Scaled)) (rescaledRetry P s)
      (rescaledRetry (E.problem P) s') := by
  have grows : ∀ Q : Problem α σ n, Follows Grows (do
      modifyWork fun w => { w with retrying := true }
      let retry ← runDamped Q P.options.retryTolerances false
      modifyWork fun w => { w with retrying := false }
      pure retry : Action α σ n (Attempt α)) := by
    intro Q
    have hC := closed_grows_setting Q
    refine hC.seq (hC.work (fun _ => ⟨rfl, rfl, rfl, rfl⟩) (fun _ _ _ => rfl) fun _ => rfl) fun _ => ?_
    refine hC.seq (hC.stage.runDamped (grows_lineSearch Q) _ false) fun _ => ?_
    exact hC.seq (hC.work (fun _ => ⟨rfl, rfl, rfl, rfl⟩) (fun _ _ _ => rfl) fun _ => rfl)
      fun _ => hC.value _
  unfold rescaledRetry
  refine (updateResidualScales_unless hE (fun _ _ hg => hg) (fun _ _ hw => hw) h).bind
    (fun _ _ t t' ht => ?_) (fun _ => grows P) fun _ => grows (E.problem P)
  have hgeared : Mirror E (Geared P E.units E.units.Scaled) t t' :=
    ht.mono fun hg => hg.elim id fun hg => hg.elim id fun hg => .inr hg.stale
  have hcore := congrArg (fun c : Core α n => { c with retrying := true }) hgeared.core
  have hbegun : Mirror E (Geared P E.units E.units.Scaled)
      { t with work := { t.work with retrying := true } }
      { t' with work := { t'.work with retrying := true } } :=
    ⟨hcore, hgeared.gear, hgeared.view, hgeared.points⟩
  rw [modifyWork_bind_apply, modifyWork_bind_apply]
  refine (runDamped_unless hE P.options.retryTolerances false hbegun).bind
    (fun v v' u u' ⟨hv, hu⟩ => ?_) (fun _ u => Grows.of_eq rfl) fun _ u => Grows.of_eq rfl
  subst hv
  have hcore := congrArg (fun c : Core α n => { c with retrying := false }) hu.core
  exact .inr ⟨rfl, hcore, hu.gear, hu.view, hu.points⟩

/-- A new Jacobian is asked for in both sessions. -/
theorem Geared.pressed {g g' : Gear α n} {U : UnitChange α n} {R : Vector α n → Vector α n → Prop}
    (h : Geared P U R g g') :
    Geared P U R { g with forced := true } { g' with forced := true } := by
  obtain hkept | hstale := h
  · exact .inl { hkept with forced := rfl }
  · refine .inr ⟨⟨hstale.sane, hstale.sane', hstale.scale⟩, ?_⟩
    exact hstale.due.imp_right fun hdue => ⟨hdue.1, .inl rfl, .inl rfl⟩

theorem tryRescaled_unless (hE : E.Fits P) (first : Bool) (standing : Standing α)
    (h : Mirror E (Geared P E.units E.units.Scaled) s s') :
    Unless E (Attempted E P) (Mirror E (Loose E.units.Scaled)) (tryRescaled P first standing s)
      (tryRescaled (E.problem P) first standing s') := by
  have hoptions : (E.problem P).options = P.options := rfl
  rw [tryRescaled_apply, tryRescaled_apply, hoptions]
  split
  · have hannounced : Mirror E (Geared P E.units E.units.Scaled)
        { s with notices := standing.rescalingNotices s.notices }
        { s' with notices := standing.rescalingNotices s'.notices } :=
      ⟨h.core, h.gear, h.view, h.points⟩
    have grows : ∀ Q : Problem α σ n, ∀ retry, Follows Grows (concludeRetry Q standing retry) :=
      fun Q => (closed_grows_setting Q).concludeRetry standing
    refine (rescaledRetry_unless hE hannounced).bind (fun v v' t t' ⟨hv, ht⟩ => ?_) (grows P)
      (grows (E.problem P))
    subst hv
    unfold concludeRetry
    split
    · have hcore := congrArg (fun c : Core α n => { c with forceRescaling := true }) ht.core
      exact .inr ⟨rfl, hcore, ht.gear.pressed, ht.view, ht.points⟩
    · exact .inr ⟨rfl, ht⟩
  · exact .inr ⟨rfl, h⟩

theorem restartFromNominal_meets {T : Gear α n → Gear α n → Prop} (h : Mirror E T s s') :
    Meets (fun _ _ => Mirror E T) (Mirror E T) (restartFromNominal P s)
      (restartFromNominal (E.problem P) s') := by
  have hoptions : (E.problem P).options = P.options := rfl
  unfold restartFromNominal
  rw [get_bind_apply, get_bind_apply, h.nominal, h.lower, h.upper, hoptions]
  cases nominalGuess? s.nominal s.lower s.upper P.options.enforceBounds with
  | some x =>
    have hcore := congrArg (fun c : Core α n => { c with x }) h.core
    exact ⟨hcore, h.gear, h.view, h.points⟩
  | none => exact ⟨rfl, h⟩

theorem tryNominal_unless (hE : E.Fits P) (standing : Standing α)
    (h : Mirror E (Geared P E.units E.units.Scaled) s s') :
    Unless E (Attempted E P) (Mirror E (Loose E.units.Scaled)) (tryNominal P standing s)
      (tryNominal (E.problem P) standing s') := by
  have hoptions : (E.problem P).options = P.options := rfl
  unfold tryNominal
  rw [hoptions]
  split
  · have hrestart := (restartFromNominal_meets (P := P) h).mono (fun _ _ _ _ ht => ht) fun _ _ ht =>
      ht.mono Geared.loose
    refine hrestart.bind_unless fun _ _ t t' ht => ?_
    have hleft : Mirror E (Geared P E.units E.units.Scaled)
        { t with work := { t.work with jacobianAtPoint := false } }
        { t' with work := { t'.work with jacobianAtPoint := false } } :=
      ⟨ht.core, ht.gear.left, ht.view, ht.points⟩
    dsimp only
    rw [modifyWork_bind_apply, modifyWork_bind_apply, notify_bind_apply, notify_bind_apply]
    refine (runDamped_unless hE (P.options.firstTolerances n) false
      (hleft.noted .nominalRetry .nominalRetry)).bind (fun v v' u u' ⟨hv, hu⟩ => ?_)
      (fun _ u => Grows.refl u) fun _ u => Grows.refl u
    subst hv
    exact .inr ⟨rfl, hu⟩
  · exact .inr ⟨rfl, h⟩

/-! ## The close -/

theorem writeBack_meets (hP : Determined P.model E.view)
    (h : Mirror E (Geared P E.units E.units.Scaled) s s') :
    Meets (Attempted E P) (Mirror E (Loose E.units.Scaled)) (writeBack P s)
      (writeBack (E.problem P) s') := by
  unfold writeBack
  rw [get_bind_apply, get_bind_apply, h.x, ask_bind_apply, ask_bind_apply]
  have hanswer : ((E.problem P).model.writeBack s.x s'.model).1 =
      (P.model.writeBack s.x s.model).1 := ((hP.writeBack s.x).answer _ _ h.view).symm
  have hview : E.view (P.model.writeBack s.x s.model).2 =
      E.view (P.model.writeBack s.x s'.model).2 := by
    rw [(hP.writeBack s.x).keeps, (hP.writeBack s.x).keeps, h.view]
  have hcalled := h.called (.writeBack s.x (P.model.writeBack s.x s.model).1)
    (.writeBack s.x (P.model.writeBack s.x s.model).1) rfl hview
  rw [hanswer]
  cases hcase : (P.model.writeBack s.x s.model).1 with
  | ok v =>
    rw [hcase] at hcalled
    exact ⟨rfl, hcalled⟩
  | error failure =>
    rw [hcase] at hcalled
    cases failure with
    | fatal reason => exact ⟨rfl, hcalled.mono Geared.loose⟩
    | recoverable reason => exact ⟨rfl, hcalled.mono Geared.loose⟩

/-- Two solves that come to the same, and have the same point and corresponding residual scales in the
end. -/
def Solved {β : Type} (E : Exchange α σ ν n) (v v' : β) (t t' : Session α σ n) : Prop :=
  v' = v ∧ Mirror E (Loose E.units.Scaled) t t'

theorem closeSolve_meets (hP : Determined P.model E.view) (standing : Standing α)
    (h : Mirror E (Geared P E.units E.units.Scaled) s s') :
    Meets (Solved E) (Mirror E (Loose E.units.Scaled)) (closeSolve P standing s)
      (closeSolve (E.problem P) standing s') := by
  unfold closeSolve
  refine (writeBack_meets hP h).bind fun _ _ t t' ⟨_, ht⟩ => ?_
  have hloose := ht.mono Geared.loose
  cases standing.attempt.failure with
  | some reason => exact ⟨rfl, hloose.core, ⟨hloose.gear.sane, hloose.gear.sane', hloose.gear.scale⟩,
      hloose.view, hloose.points⟩
  | none =>
    have hmismatches : t'.work.jacobianMismatches = t.work.jacobianMismatches :=
      congrArg Core.jacobianMismatches ht.core
    dsimp only
    rw [modify_bind_apply, modify_bind_apply, get_bind_apply, get_bind_apply]
    dsimp only
    rw [hmismatches]
    exact ⟨rfl, hloose.core, hloose.gear, hloose.view, hloose.points⟩

theorem grows_restartFromNominal (P : Problem α σ n) : Follows Grows (restartFromNominal P) :=
  fun s => after_restartFromNominal (fun _ _ => Grows.of_eq rfl) fun _ => Grows.refl s

omit [Scalar α] in
theorem grows_writeBack (P : Problem α σ n) : Follows Grows (writeBack P) :=
  follows_writeBack fun _ => Grows.of_eq rfl

omit [Scalar α] in
theorem grows_closeSolve (P : Problem α σ n) (standing : Standing α) :
    Follows Grows (closeSolve P standing) := by
  refine Follows.bind (fun s t u (hst : Grows s t) (htu : Grows t u) => hst.trans htu)
    (grows_writeBack P) fun _ t => ?_
  unfold After
  cases standing.attempt.failure with
  | none => exact Grows.of_eq rfl
  | some reason => exact Grows.push rfl

theorem grows_tryDescent (P : Problem α σ n) (standing : Standing α) :
    Follows Grows (tryDescent P standing) :=
  (closed_grows_stage P).tryDescent (grows_lineSearch P) standing

theorem grows_tryRescaled (P : Problem α σ n) (first : Bool) (standing : Standing α) :
    Follows Grows (tryRescaled P first standing) :=
  (closed_grows_setting P).tryRescaled (grows_lineSearch P) first standing

theorem grows_tryNominal (P : Problem α σ n) (standing : Standing α) :
    Follows Grows (tryNominal P standing) :=
  (closed_grows_stage P).tryNominal (grows_lineSearch P) (grows_restartFromNominal P) standing

theorem grows_afterOpening (P : Problem α σ n) (first : Bool) :
    Follows Grows (afterOpening P first) := by
  have hC := closed_grows_setting P
  rw [afterOpening_eq]
  have hfirst := hC.firstAttempt (fun _ hf s => hf s s) (grows_lineSearch P)
  refine hC.seq (hC.seq (hC.seq (hC.seq hfirst ?_) ?_) ?_) ?_
  · exact grows_tryDescent P
  · exact grows_tryRescaled P first
  · exact grows_tryNominal P
  · exact grows_closeSolve P

theorem afterOpening_unless (hE : E.Fits P) (first : Bool)
    (h : Mirror E (Geared P E.units E.units.Scaled) s s') :
    Unless E (Solved E) (Mirror E (Loose E.units.Scaled)) (afterOpening P first s)
      (afterOpening (E.problem P) first s') := by
  have next : ∀ {a a' : Action α σ n (Standing α)} {f : Standing α → Action α σ n (Standing α)}
      {f' : Standing α → Action α σ n (Standing α)},
      Unless E (Attempted E P) (Mirror E (Loose E.units.Scaled)) (a s) (a' s') →
      (∀ standing t t', Mirror E (Geared P E.units E.units.Scaled) t t' →
        Unless E (Attempted E P) (Mirror E (Loose E.units.Scaled)) (f standing t)
          (f' standing t')) →
      (∀ standing, Follows Grows (f standing)) → (∀ standing, Follows Grows (f' standing)) →
      Unless E (Attempted E P) (Mirror E (Loose E.units.Scaled)) ((a >>= f) s) ((a' >>= f') s') := by
    intro a a' f f' ha hf hgrows hgrows'
    refine ha.bind (fun v v' t t' ⟨hv, ht⟩ => ?_) hgrows hgrows'
    subst hv
    exact hf v' t t' ht
  have hdescent := next (firstAttempt_unless hE h) (fun standing _ _ => tryDescent_unless hE standing)
    (grows_tryDescent P) (grows_tryDescent (E.problem P))
  have hrescaled := next hdescent (fun standing _ _ => tryRescaled_unless hE first standing)
    (grows_tryRescaled P first) (grows_tryRescaled (E.problem P) first)
  have hnominal := next hrescaled (fun standing _ _ => tryNominal_unless hE standing)
    (grows_tryNominal P) (grows_tryNominal (E.problem P))
  rw [afterOpening_eq, afterOpening_eq]
  refine hnominal.bind (fun v v' t t' ⟨hv, ht⟩ => ?_) (grows_closeSolve P)
    (grows_closeSolve (E.problem P))
  subst hv
  exact (closeSolve_meets hE.determined v' ht).unless

/-! ## The opening -/

theorem checkStartingPoint_meets {T : Gear α n → Gear α n → Prop} (hP : Determined P.model E.view)
    (h : Mirror E T s s') :
    Meets (fun _ _ => Mirror E T) (Mirror E T) (checkStartingPoint P s)
      (checkStartingPoint (E.problem P) s') := by
  have again : ∀ {u u' : Session α σ n}, Mirror E T u u' →
      Meets (fun _ _ => Mirror E T) (Mirror E T) (checkPoint P u) (checkPoint (E.problem P) u') := by
    intro u u' hu
    unfold checkPoint
    rw [get_bind_apply, get_bind_apply, hu.x]
    refine (evaluate_echoes hP u.x u u' hu).bind fun v v' w w' hevaluated => ?_
    obtain ⟨rfl, hw⟩ := hevaluated
    cases v with
    | ok _ => exact hw
    | error mishap => exact ⟨rfl, hw⟩
  have hoptions : (E.problem P).options = P.options := rfl
  unfold checkStartingPoint
  rw [get_bind_apply, get_bind_apply, h.x, hoptions]
  refine (evaluate_echoes hP s.x s s' h).bind fun v v' t t' hevaluated => ?_
  obtain ⟨rfl, ht⟩ := hevaluated
  cases v with
  | ok _ => exact ht
  | error mishap =>
    dsimp only [Except.map]
    split
    · refine (restartFromNominal_meets ht).bind fun _ _ u u' hu => ?_
      rw [notify_bind_apply, notify_bind_apply]
      exact again (hu.noted (.guessUndefined mishap) (.guessUndefined mishap))
    · exact ⟨rfl, ht⟩

section
variable {T : Gear α n → Gear α n → Prop} {R : Vector α n → Vector α n → Prop}

/-- An opened solve: the sessions are in step, or what is known of the Jacobians is as it was, or they
cannot be used. -/
def Opening (E : Exchange α σ ν n) (P : Problem α σ n) (T : Gear α n → Gear α n → Prop)
    (R : Vector α n → Vector α n → Prop) (v v' : Bool) (t t' : Session α σ n) : Prop :=
  v' = v ∧ Mirror E (fun g g' => Geared P E.units E.units.Scaled g g' ∨ T g g' ∨ Rejected R g g') t t'

theorem settlePoint_unless (hE : E.Fits P)
    (hleft : ∀ g g', T g g' → T { g with atPoint := false } { g' with atPoint := false })
    (hT : ∀ g g', T g g' → Geared P E.units R g g') (hR : ∀ w w', E.units.Scaled w w' → R w w')
    (first : Bool) (h : Mirror E T s s') :
    Unless E (Opening E P T R) (Mirror E (Loose R)) (settlePoint P first s)
      (settlePoint (E.problem P) first s') := by
  have hoptions : (E.problem P).options = P.options := rfl
  have hforced : s'.work.flags.forceRescaling = s.work.flags.forceRescaling :=
    congrArg Core.forceRescaling h.core
  have hleft : Mirror E T s.unpinned s'.unpinned := ⟨h.core, hleft _ _ h.gear, h.view, h.points⟩
  rw [settlePoint_apply, settlePoint_apply, hoptions, hforced]
  split
  · exact (updateResidualScales_unless hE hT hR hleft).bind (fun _ _ t t' ht => .inr ⟨rfl, ht⟩)
      (fun _ t => Grows.refl t) fun _ t => Grows.refl t
  · exact .inr ⟨rfl, hleft.mono fun hg => .inr (.inl hg)⟩

theorem openSolve_unless (hE : E.Fits P)
    (hleft : ∀ g g', T g g' → T { g with atPoint := false } { g' with atPoint := false })
    (hT : ∀ g g', T g g' → Geared P E.units R g g') (hR : ∀ w w', E.units.Scaled w w' → R w w')
    (hs : s.work.ready = false) (hs' : s'.work.ready = false)
    (h : Mirror E T (s.derived P).emptied (s'.derived (E.problem P)).emptied) :
    Unless E (Opening E P T R) (Mirror E (Loose R)) (openSolve P s)
      (openSolve (E.problem P) s') := by
  rw [openSolve_unready P hs, openSolve_unready (E.problem P) hs']
  have hstart := (checkStartingPoint_meets hE.determined h).mono (fun _ _ _ _ ht => ht) fun _ _ ht =>
    ht.mono fun hg => (hT _ _ hg).loose
  exact hstart.bind_unless fun _ _ t t' ht => settlePoint_unless hE hleft hT hR true ht

end

/-! ## Whole solves -/

/-- The marks of a block after a solve do not matter. -/
theorem Unless.unmarked {β : Type} {a a' : Action α σ n β} {R : Vector α n → Vector α n → Prop}
    (h : Unless E (Solved E) (Mirror E (Loose R)) (a s) (a' s')) :
    Unless E (Solved E) (Mirror E (Loose R)) (thenAlways a Session.unmarked s)
      (thenAlways a' Session.unmarked s') := by
  have stays : ∀ {T : Gear α n → Gear α n → Prop} {t t' : Session α σ n}, Mirror E T t t' →
      Mirror E T t.unmarked t'.unmarked := fun ht => ⟨ht.core, ht.gear, ht.view, ht.points⟩
  have hfinal : ∀ (a : Action α σ n β) (t : Session α σ n),
      (final (thenAlways a Session.unmarked t)).notices = (final (a t)).notices := by
    intro a t
    unfold thenAlways
    cases a t <;> rfl
  obtain hdisturbed | hmeets := h
  · exact .inl (hdisturbed.later (Grows.of_eq (hfinal a s)) (Grows.of_eq (hfinal a' s')))
  · refine .inr ?_
    obtain ⟨v, v', t, t', hs, hs', hv, ht⟩ | ⟨halt, t, t', hs, hs', ht⟩ := hmeets.ends
    · rw [thenAlways_ok hs, thenAlways_ok hs']
      exact ⟨hv, stays ht⟩
    · rw [thenAlways_error hs, thenAlways_error hs']
      exact ⟨rfl, stays ht⟩

end

end AlgebraicLoop
