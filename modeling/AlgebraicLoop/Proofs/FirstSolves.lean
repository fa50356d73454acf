import AlgebraicLoop.Proofs.UnsolvedBlocks

/-!
# The first solve of a block

The first solve of a block checks the residual where it starts, computes the residual scales and goes
on to a second attempt with new ones. A block that was set up by an operation before does none of this:
its solve is that of a fresh block that has been set up, with the same result, the same point and the
same residual scales in the end.

* `Block.outcome`: what is compared;
* `Session.Clean`, `Abreast`: what a solve would notice of earlier operations, and sessions at the same
  point;
* `solveDamped_fresh`, `solveDamped_settled`, `solveDamped_unscaled`: solves compared;
* `solve_unsolved`: the solve after operations that did not get past the start of one.
-/

namespace AlgebraicLoop
set_option autoImplicit false

section
variable {α σ ν : Type} [Scalar α] {n : Nat} {P : Problem α σ n} {E : Exchange α σ ν n}
  {view : σ → ν} {s s' t t' u u' : Session α σ n}

/-! ## The same units -/

theorem UnitChange.none_model (m : Model α σ n) : (none : UnitChange α n).model m = m := by
  have hresidual : ∀ r : Except EvalFailure (Vector α n),
      r.map (none : UnitChange α n).residual = r := by
    intro r
    cases r with
    | ok f => exact congrArg Except.ok (none_residual f)
    | error _ => rfl
  have hmatrix : ∀ w : Writing α σ n, w.map (none : UnitChange α n).matrix = w :=
    Writing.map_of_eq none_matrix
  unfold UnitChange.model
  simp only [hresidual, hmatrix]
  cases m with
  | mk => simp

theorem Exchange.problem_none (hunits : E.units = .none) : E.problem P = P := by
  unfold Exchange.problem
  rw [hunits, UnitChange.none_model]

theorem Unless.meets {β γ : Type} {Q : β → γ → Session α σ n → Session α σ n → Prop}
    {H : Session α σ n → Session α σ n → Prop} {r : EStateM.Result (Halt α) (Session α σ n) β}
    {r' : EStateM.Result (Halt α) (Session α σ n) γ} (hunits : E.units = .none)
    (h : Unless E Q H r r') : Meets Q H r r' :=
  h.resolve_left fun hdisturbed => hdisturbed.1 hunits

theorem UnitChange.none_core (c : Core α n) : (none : UnitChange α n).core c = c := by
  have hfirst : (none : UnitChange α n).first = .none := by
    unfold first
    split <;> rfl
  have hbracket : ∀ b : Bracket α, (Stretch.none : Stretch α).bracket b = b := by
    rintro ⟨below, above⟩
    cases below <;> cases above <;> rfl
  have hpast : ∀ h : StepHistory α n, (none : UnitChange α n).past h = h := fun h =>
    congrArg (fun residual => ({ h with residual } : StepHistory α n)) (none_residual h.residual)
  have hhistory : c.history.map (none : UnitChange α n).past = c.history := by
    rw [funext hpast]
    exact congrFun Option.map_id c.history
  unfold UnitChange.core
  rw [hfirst, hbracket, hhistory]

/-! ## What is compared -/

/-- The result, the point and the residual scales that a computation ends with. -/
def outcomeOf {β : Type} :
    EStateM.Result (Halt α) (Session α σ n) β → Except (Halt α) β × Vector α n × Vector α n
  | .ok v t => (.ok v, t.x, t.work.residualScale)
  | .error halt t => (.error halt, t.x, t.work.residualScale)

/-- What a solve of the block comes to: its result with the trace of its iterations, and the point and
the residual scales that the block is left with. -/
def Block.outcome (b : Block α σ n) : Except (Halt α) (Report α) × Vector α n × Vector α n :=
  (b.solve.1, b.solve.2.session.x, b.solve.2.session.work.residualScale)

theorem Block.outcome_eq (b : Block α σ n) :
    b.outcome = outcomeOf (solveAction b.problem b.session) := by
  unfold Block.outcome Block.solve
  cases h : solveAction b.problem b.session with
  | ok _ _ =>
    rw [Block.perform_ok h]
    rfl
  | error _ _ =>
    rw [Block.perform_error h]
    rfl

theorem outcome_of_meets {β : Type} {r r' : EStateM.Result (Halt α) (Session α σ n) β}
    (hunits : E.units = .none) (h : Meets (Solved E) (Mirror E (Loose E.units.Scaled)) r r') :
    outcomeOf r = outcomeOf r' := by
  have hscales : ∀ {t t' : Session α σ n}, Mirror E (Loose E.units.Scaled) t t' →
      t'.work.residualScale = t.work.residualScale := by
    intro t t' ht
    have hscale : t'.work.residualScale = E.units.scales t.work.residualScale := ht.gear.scale
    rw [hscale, hunits, UnitChange.none_scales]
  obtain ⟨v, v', t, t', rfl, rfl, hv, ht⟩ | ⟨halt, t, t', rfl, rfl, ht⟩ := h.ends
  · simp only [outcomeOf, hv, ht.x, hscales ht]
  · simp only [outcomeOf, ht.x, hscales ht]

/-! ## From the opening to the end -/

omit [Scalar α] in
/-- What follows depends on what the first action came to, not on how. -/
theorem bind_same {β γ : Type} {a a' : Action α σ n β} {f : β → Action α σ n γ} (h : a s = a' s') :
    (a >>= f) s = (a' >>= f) s' := by
  rw [bind_apply, bind_apply, h]

/-- A solve that has been set up, from the residual scales on. -/
def rescaledSolve (P : Problem α σ n) (first : Bool) : Action α σ n (Report α) :=
  settlePoint P first >>= afterOpening P

theorem rescaledSolve_unless (hE : E.Fits P) (first : Bool)
    (h : Mirror E (Geared P E.units E.units.Scaled) s s') :
    Unless E (Solved E) (Mirror E (Loose E.units.Scaled)) (rescaledSolve P first s)
      (rescaledSolve (E.problem P) first s') := by
  have hopen := settlePoint_unless hE (fun _ _ => Geared.left) (fun _ _ hg => hg)
    (fun _ _ hw => hw) first h
  refine hopen.bind (fun v v' t t' ⟨hv, ht⟩ => ?_) (grows_afterOpening P)
    (grows_afterOpening (E.problem P))
  subst hv
  exact afterOpening_unless hE v'
    (ht.mono fun hg => hg.elim id fun hg => hg.elim id fun hg => .inr hg.stale)

theorem solveDamped_again (hs : s.work.ready = true) (haccepted : s.work.accepted = none) :
    solveDamped P s = rescaledSolve P false s.emptied := by
  unfold rescaledSolve
  rw [solveDamped_eq]
  exact bind_same (openSolve_stays hs (resumed?_of_accepted haccepted))

theorem solveDamped_unready (hs : s.work.ready = false) :
    solveDamped P s =
      (checkStartingPoint P >>= fun _ => rescaledSolve P true) (s.derived P).emptied := by
  unfold rescaledSolve
  rw [solveDamped_eq, ← bind_assoc]
  exact bind_same (openSolve_unready P hs)

/-! ## Blocks in the same place -/

/-- Two runs in the same units. -/
def Exchange.same (view : σ → ν) (s s' : Session α σ n) : Exchange α σ ν n :=
  ⟨.none, view, s.points, s'.points⟩

/-- The session with its Jacobian no longer taken for that of the current point. -/
def Session.left (s : Session α σ n) : Session α σ n :=
  { s with work := { s.work with jacobianAtPoint := false } }

theorem rescaledSolve_left (P : Problem α σ n) (first : Bool) (s : Session α σ n) :
    rescaledSolve P first s.left = rescaledSolve P first s := rfl

/-- Nothing is left of earlier operations that a solve would notice: the Jacobian is evaluated anew, it
was not found to be singular, and no entry of it disagreed with a difference quotient. -/
structure Session.Clean (P : Problem α σ n) (s : Session α σ n) : Prop where
  due : s.left.gear.Due P
  manual : P.options.residualScaling = .manual → s.work.flags.jacobianCurrent = false
  singular : s.work.flags.singular = false
  mismatches : s.work.jacobianMismatches = 0

theorem clean_fresh (hwork : s.work = Workspace.fresh n) : (s.derived P).Clean P := by
  unfold Session.derived
  rw [hwork]
  exact ⟨.inr (.inl rfl), fun _ => rfl, rfl, rfl⟩

/-- Two sessions of started blocks that are at the same point, between the same bounds. -/
structure Abreast (view : σ → ν) (s s' : Session α σ n) : Prop where
  started : s.phase ≠ .untouched
  started' : s'.phase ≠ .untouched
  x : s'.x = s.x
  lower : s'.lower = s.lower
  upper : s'.upper = s.upper
  nominal : s'.nominal = s.nominal
  atEvent : s'.atEvent = s.atEvent
  view : view s.model = view s'.model

namespace Session.Unserved
variable {pattern : Option (Pattern n n)}

theorem residualScale (h : s.Unserved P pattern) :
    s.work.residualScale = Vector.replicate n 1 := by
  obtain ⟨_, _, _, hs⟩ := h.frame
  exact congrArg Frame.residualScale hs

/-- The core of a block without a solve depends on the point, the bounds and the nominal values. -/
theorem core_eq (h : s.Unserved P pattern) (hclean : s.Clean P) :
    s.emptied.core = (s.anew P pattern).emptied.core := by
  obtain ⟨singular, recovery, hrecovery, hs⟩ := h.frame
  have hsingular : s.work.flags.singular = singular := congrArg (fun f => f.core.singular) hs
  have hfalse : singular = false := hsingular.symm.trans hclean.singular
  have hmismatches : s.emptied.core = s.frame.core := by
    simp only [Session.frame, Session.core, Session.emptied, hclean.mismatches]
  rw [hmismatches, hs, hrecovery hfalse, hfalse]
  rfl

theorem same_core (h : s.Unserved P pattern) (h' : s'.Unserved P pattern) (hclean : s.Clean P)
    (hclean' : s'.Clean P) (hplace : Abreast view s s') : s'.emptied.core = s.emptied.core := by
  rw [h.core_eq hclean, h'.core_eq hclean']
  simp only [Session.core, Session.anew, Session.emptied, hplace.x, hplace.lower, hplace.upper,
    hplace.nominal]

theorem stale (h : s.Unserved P pattern) (h' : s'.Unserved P pattern) (hclean : s.Clean P)
    (hclean' : s'.Clean P) :
    Stale P (UnitChange.none : UnitChange α n).Scaled s.left.gear s'.left.gear := by
  refine ⟨⟨h.sane, h'.sane, ?_⟩, ?_⟩
  · have hscale : s'.work.residualScale = s.work.residualScale :=
      h'.residualScale.trans h.residualScale.symm
    exact hscale.trans (UnitChange.none_scales _).symm
  · by_cases hmanual : P.options.residualScaling = .manual
    · exact .inl ⟨hclean.manual hmanual, hclean'.manual hmanual⟩
    · exact .inr ⟨hmanual, hclean.due, hclean'.due⟩

end Session.Unserved

/-! ## Two solves -/

theorem mirror_same {T : Gear α n → Gear α n → Prop} (hcore : s'.core = s.core)
    (hgear : T s.gear s'.gear) (hview : view s.model = view s'.model) :
    Mirror (.same view s s') T s s' :=
  ⟨hcore.trans (UnitChange.none_core _).symm, hgear, hview,
    ⟨[], (List.append_nil _).symm, (List.append_nil _).symm⟩⟩

theorem fits_same (hmodel : Determined P.model view) (s s' : Session α σ n) :
    (Exchange.same view s s').Fits P :=
  ⟨hmodel, .inl rfl, .inl rfl, .inl rfl⟩

omit [Scalar α] in
theorem usablePattern_eq (hmodel : Foreseen P.model view) {m m' : σ} (h : view m = view m') :
    usablePattern? P m' = usablePattern? P m := by
  unfold usablePattern?
  rw [hmodel.pattern _ _ h]

theorem derived_left (hwork : s.work = Workspace.fresh n) :
    (s.derived P).left = s.derived P := by
  unfold Session.derived Session.left
  rw [hwork]
  rfl

theorem Abreast.first_derived (h : Abreast view s s') : Abreast view (s.derived P) s' :=
  ⟨h.started, h.started', h.x, h.lower, h.upper, h.nominal, h.atEvent, h.view⟩

theorem Abreast.second_derived (h : Abreast view s s') : Abreast view s (s'.derived P) :=
  ⟨h.started, h.started', h.x, h.lower, h.upper, h.nominal, h.atEvent, h.view⟩

/-- Two sessions without a solve, when both have been set up. -/
theorem mirror_unserved (hmodel : Foreseen P.model view) (hplace : Abreast view s s')
    (h : s.Unserved P (usablePattern? P s.model)) (hclean : s.Clean P)
    (hwork' : s'.work = Workspace.fresh n) :
    Mirror (.same view s.emptied.left (s'.derived P).emptied)
      (Geared P (UnitChange.none : UnitChange α n) UnitChange.none.Scaled) s.emptied.left
      (s'.derived P).emptied := by
  have h' := Session.derived_unserved (P := P) hwork' hplace.started'
  rw [usablePattern_eq hmodel hplace.view] at h'
  have hclean' := clean_fresh (P := P) hwork'
  have hstale := h.stale h' hclean hclean'
  rw [derived_left hwork'] at hstale
  exact mirror_same (h.same_core h' hclean hclean' hplace.second_derived) (.inr hstale) hplace.view

/-- The solve of a block that has been set up, and that of a fresh block that has been set up. -/
theorem solveDamped_settled (hmodel : Foreseen P.model view) (hplace : Abreast view s s')
    (h : s.Unserved P (usablePattern? P s.model)) (hclean : s.Clean P)
    (hwork' : s'.work = Workspace.fresh n) :
    outcomeOf (solveDamped P s) = outcomeOf (solveDamped P (s'.derived P)) := by
  have hsolves := rescaledSolve_unless (fits_same hmodel.toDetermined _ _) false
    (mirror_unserved hmodel hplace h hclean hwork')
  rw [Exchange.problem_none rfl, rescaledSolve_left] at hsolves
  have haccepted' : (s'.derived P).work.accepted = none := by
    unfold Session.derived
    rw [hwork']
    rfl
  rw [solveDamped_again h.ready h.accepted, solveDamped_again rfl haccepted']
  exact outcome_of_meets rfl (hsolves.meets rfl)

/-! ## Two fresh blocks -/

/-- Two sessions at the same point agree in all that attempts read, when neither has a workspace. The
mark of an event is all that is left of earlier Jacobians, and the brackets may differ. -/
theorem Abreast.alike (h : Abreast view s s') (hwork : s.work = Workspace.fresh n)
    (hwork' : s'.work = Workspace.fresh n) :
    Alike true false view s.notices.size s'.notices.size s s' := by
  refine ⟨fun m => ?_, nofun, h.view, ?_, Nat.le_refl _, Nat.le_refl _⟩
  · have hevent : s.outdated = s'.outdated := by
      unfold Session.outdated
      rw [hwork, hwork']
      rfl
    unfold Session.shown Session.veiled
    rw [hevent, hwork, hwork', h.x, h.lower, h.upper, h.nominal]
  · exact (List.drop_length ..).trans (List.drop_length ..).symm

variable {past bracketed : Bool} {a b : Nat} {β : Type}

theorem respects_setUp (hmodel : Foreseen P.model view) :
    Respects past bracketed view a b (setUp P) := by
  intro s t h
  have hshown := h.shown s.model
  have hready : s.work.ready = t.work.ready := congrArg (fun u => u.work.ready) hshown
  have hlower : s.lower = t.lower := congrArg (fun u => u.lower) hshown
  have hupper : s.upper = t.upper := congrArg (fun u => u.upper) hshown
  have hnominal : s.nominal = t.nominal := congrArg (fun u => u.nominal) hshown
  have hpattern : usablePattern? P s.model = usablePattern? P t.model :=
    (usablePattern_eq hmodel h.view).symm
  cases hs : s.work.ready with
  | true =>
    rw [setUp_ready P hs, setUp_ready P (hready.symm.trans hs)]
    exact ⟨rfl, h⟩
  | false =>
    rw [setUp_unready P hs, setUp_unready P (hready.symm.trans hs)]
    refine ⟨rfl, fun m => ?_, h.bracket, h.view, h.notices, h.left, h.right⟩
    have hderived : ∀ u : Session α σ n, (u.derived P).shown past m =
        { u.shown past m with
          work :=
            { (u.shown past m).work with
              box := (Box.ofBounds u.lower u.upper P.options.stepLimitFactor).blank
              variableScale :=
                variableScales P.options.variableScaling u.nominal P.options.tolerance
              pattern := usablePattern? P u.model
              ready := true } } := fun _ => rfl
    rw [hderived, hderived, h.shown, hlower, hupper, hnominal, hpattern]

theorem respects_rescaledSolve (hP : Determined P.model view) (first : Bool) :
    Respects true true view a b (rescaledSolve P first) := by
  have hC : Closed P true (Session.setting P) fun _ act => Respects true true view a b act :=
    setting_respects hP
  have hscales : Respects true true view a b (settlePoint P first) := by
    refine Respects.bind (respects_modify (fun s t h m => ?_) fun _ => rfl) fun _ => ?_
    · change { s.shown true m with work := { (s.shown true m).work with
          jacobianAtPoint := false } } =
        { t.shown true m with work := { (t.shown true m).work with jacobianAtPoint := false } }
      rw [h.shown]
    · refine respects_read (fun _ _ => rfl) fun s => ?_
      split
      · exact Respects.bind hC.stage.spot.updateResidualScales fun _ => respects_pure _
      · exact respects_pure _
  exact hscales.bind fun first => respects_attempts hP first

/-- The damped method empties the bracket, once the block is set up. -/
theorem solveDamped_alike (hmodel : Foreseen P.model view) (hs : s.work.ready = false)
    (ht : t.work.ready = false) (h : Alike true false view a b s t) :
    Together true false view a b (solveDamped P s) (solveDamped P t) := by
  have hsetUp := respects_setUp hmodel s t h
  rw [setUp_unready P hs, setUp_unready P ht] at hsetUp
  have hderived := hsetUp.2
  have hemptied : Alike true true view a b (s.derived P).emptied (t.derived P).emptied :=
    ⟨hderived.shown, fun _ => rfl, hderived.view, hderived.notices, hderived.left, hderived.right⟩
  have hP := hmodel.toDetermined
  rw [solveDamped_unready hs, solveDamped_unready ht]
  exact (((respects_checkStartingPoint hP).bind fun _ => respects_rescaledSolve hP true) _ _
    hemptied).unbracketed

theorem outcome_of_together {r r' : EStateM.Result (Halt α) (Session α σ n) β}
    (h : Together past bracketed view a b r r') : outcomeOf r = outcomeOf r' := by
  have hseen : ∀ {t t' : Session α σ n}, Alike past bracketed view a b t t' →
      t.x = t'.x ∧ t.work.residualScale = t'.work.residualScale := fun {t _} ht =>
    ⟨congrArg (fun u => u.x) (ht.shown t.model),
      congrArg (fun u => u.work.residualScale) (ht.shown t.model)⟩
  obtain ⟨v, t, t', rfl, rfl, ht⟩ | ⟨halt, t, t', rfl, rfl, ht⟩ := h.ends
  · simp only [outcomeOf, hseen ht]
  · simp only [outcomeOf, hseen ht]

/-- The solves of two fresh blocks. -/
theorem solveDamped_fresh (hmodel : Foreseen P.model view) (hplace : Abreast view s s')
    (hwork : s.work = Workspace.fresh n) (hwork' : s'.work = Workspace.fresh n) :
    outcomeOf (solveDamped P s) = outcomeOf (solveDamped P s') :=
  outcome_of_together (solveDamped_alike hmodel (unready_fresh hwork) (unready_fresh hwork')
    (hplace.alike hwork hwork'))

/-! ## Without residual scaling -/

theorem noteSample_twice (P : Problem α σ n) (x f : Vector α n) :
    noteSample P x f (noteSample P x f {}) = noteSample P x f {} := by
  have record : ∀ p : Sample α, (Bracket.record {} p).record p = Bracket.record {} p := by
    intro p
    unfold Bracket.record
    split
    · rfl
    · split
      · simp
      · simp
  unfold noteSample
  split
  · cases sampleOf? x f with
    | none => rfl
    | some p => exact record p
  · rfl

/-- The session after an evaluation at its point, apart from the requests and their answers. -/
def Session.noted (P : Problem α σ n) (f : Vector α n) (s : Session α σ n) : Session α σ n :=
  { s with bracket := noteSample P s.x f {} }

/-- An attempt evaluates the residual where it starts, so that it does not matter whether this was done
before. -/
theorem runDamped_noted (P : Problem α σ n) (tol : Tolerances α) (descent : Bool) {f : Vector α n}
    (hf : (P.model.evaluate s.x s.model).1 = .ok f) (hfinite : allFinite f = true) :
    runDamped P tol descent (s.emptied.noted P f) = runDamped P tol descent s.emptied := by
  have hsame : ∀ w : Workspace α n,
      evaluate P s.x { s.emptied.noted P f with work := w } =
        evaluate P s.x { s.emptied with work := w } := by
    intro w
    rw [evaluate_apply, evaluate_apply]
    simp only [Session.noted, Session.emptied, hf, findIllegal_none hfinite, Session.asked,
      noteSample_twice]
  unfold runDamped
  rw [modifyWork_bind_apply, modifyWork_bind_apply, get_bind_apply, get_bind_apply]
  exact bind_same (hsame { s.work with history := none, flags.useSteepestDescent := false })

theorem afterOpening_noted (P : Problem α σ n) (first : Bool) {f : Vector α n}
    (hf : (P.model.evaluate s.x s.model).1 = .ok f) (hfinite : allFinite f = true) :
    afterOpening P first (s.emptied.noted P f) = afterOpening P first s.emptied := by
  have hattempt : firstAttempt P (s.emptied.noted P f) = firstAttempt P s.emptied := by
    unfold firstAttempt
    rw [modifyWork_bind_apply, modifyWork_bind_apply]
    exact bind_same (runDamped_noted
      (s := { s with work := { s.work with firstAttempt := true, retrying := false } }) P _ false hf
      hfinite)
  exact bind_same hattempt

/-- Without residual scaling the first solve has no second attempt. -/
theorem afterOpening_unscaled (hscaling : P.options.residualScaling = .none) (first : Bool) :
    afterOpening P first = afterOpening P true := by
  have hrescaled : ∀ (first : Bool) (standing : Standing α),
      tryRescaled P first standing = pure standing := fun first standing =>
    if_neg fun h => h.1 hscaling
  unfold afterOpening
  simp only [hrescaled]

theorem rescaledSolve_unscaled (hscaling : P.options.residualScaling = .none) (first : Bool)
    (hwork : s.work = Workspace.fresh n) (hwork' : t.work = (s.derived P).work) :
    rescaledSolve P first t = afterOpening P true t := by
  have stays : ∀ w : Workspace α n, w = t.work → { t with work := w } = t := by
    rintro _ rfl
    rfl
  have hrescaled : settlePoint P first t = .ok first t := by
    unfold settlePoint updateResidualScales
    rw [modifyWork_bind_apply, get_bind_apply, if_pos hscaling]
    split
    · refine congrArg (EStateM.Result.ok first) (stays _ ?_)
      rw [hwork']
      unfold Session.derived
      rw [hwork]
      rfl
    · refine congrArg (EStateM.Result.ok first) (stays _ ?_)
      rw [hwork']
      unfold Session.derived
      rw [hwork]
      rfl
  unfold rescaledSolve
  rw [bind_ok hrescaled, afterOpening_unscaled hscaling]

theorem checkStartingPoint_defined (P : Problem α σ n) {f : Vector α n}
    (hf : (P.model.evaluate s.x s.model).1 = .ok f) (hfinite : allFinite f = true) :
    checkStartingPoint P s =
      .ok () { s.asked P s.x with bracket := noteSample P s.x f s.bracket } := by
  unfold checkStartingPoint
  rw [get_bind_apply, bind_apply, evaluate_apply, hf]
  dsimp only
  rw [findIllegal_none hfinite]
  rfl

theorem solveDamped_unscaled (hmodel : Foreseen P.model view) (hplace : Abreast view s s')
    (hwork : s.work = Workspace.fresh n) (hwork' : s'.work = Workspace.fresh n)
    (hscaling : P.options.residualScaling = .none) {f : Vector α n}
    (hf : (P.model.evaluate s.x s.model).1 = .ok f) (hfinite : allFinite f = true) :
    outcomeOf (solveDamped P s) = outcomeOf (solveDamped P (s'.derived P)) := by
  have hf' : (P.model.evaluate s'.x s'.model).1 = .ok f := by
    rw [hplace.x, ← (hmodel.evaluate s.x).answer _ _ hplace.view]
    exact hf
  have haccepted' : (s'.derived P).work.accepted = none := by
    unfold Session.derived
    rw [hwork']
    rfl
  have hleft : (s.derived P).emptied.left = (s.derived P).emptied :=
    congrArg Session.emptied (derived_left (P := P) hwork)
  have h := Session.derived_unserved (P := P) hwork hplace.started
  have hmirror := mirror_unserved hmodel hplace.first_derived h (clean_fresh hwork) hwork'
  rw [hleft] at hmirror
  have hcore := congrArg (fun c : Core α n => { c with bracket := noteSample P c.x f {} })
    (hmirror.core.trans (UnitChange.none_core _))
  have hview := ((hmodel.evaluate s.x).keeps s.model).trans hplace.view
  have hfirst : solveDamped P s = afterOpening P true
      { (s.derived P).emptied.asked P s.x with bracket := noteSample P s.x f {} } := by
    have hchecked := checkStartingPoint_defined (s := (s.derived P).emptied) P hf hfinite
    rw [solveDamped_unready (unready_fresh hwork), bind_ok hchecked]
    exact rescaledSolve_unscaled hscaling true hwork rfl
  have hagain : solveDamped P (s'.derived P) =
      afterOpening P true ((s'.derived P).emptied.noted P f) := by
    rw [solveDamped_again rfl haccepted', afterOpening_noted (s := s'.derived P) P true hf' hfinite]
    exact rescaledSolve_unscaled hscaling false hwork' rfl
  let t := { (s.derived P).emptied.asked P s.x with bracket := noteSample P s.x f {} }
  let t' := (s'.derived P).emptied.noted P f
  have hsame : Mirror (.same view t t') (Geared P .none (UnitChange.Scaled .none)) t t' :=
    mirror_same hcore hmirror.gear hview
  have hsolves := afterOpening_unless (fits_same hmodel.toDetermined t t') true hsame
  rw [Exchange.problem_none rfl] at hsolves
  rw [hfirst, hagain]
  exact outcome_of_meets rfl (hsolves.meets rfl)

/-! ## Whole solves -/

omit [Scalar α] in
theorem outcome_unmarked (a : Action α σ n (Report α)) (s : Session α σ n) :
    outcomeOf (thenAlways a Session.unmarked s) = outcomeOf (a s) := by
  unfold thenAlways
  cases a s with
  | ok _ _ => rfl
  | error _ _ => rfl

theorem Abreast.startingPoint (h : Abreast view s s') : startingPoint P s' = startingPoint P s := by
  unfold AlgebraicLoop.startingPoint
  rw [h.lower, h.upper, h.x]

theorem Abreast.requested (h : Abreast view s s') (ht : Requested view (s.begun P) t)
    (ht' : Requested view (s'.begun P) t') : Abreast view t t' := by
  obtain ⟨_, _, _, hview, rfl⟩ := ht
  obtain ⟨_, _, _, hview', rfl⟩ := ht'
  exact ⟨h.started, h.started', h.startingPoint, h.lower, h.upper, h.nominal, h.atEvent,
    hview.trans (h.view.trans hview'.symm)⟩

/-- What a solve does before its method is the same at the same point. -/
theorem prelude_abreast (hP : Determined P.model view) (h : Abreast view s s') :
    Meets (fun _ _ t t' => Requested view (s.begun P) t ∧ Requested view (s'.begun P) t')
      (fun t t' => Requested view (s.begun P) t ∧ Requested view (s'.begun P) t') (prelude P s)
      (prelude P s') := by
  have hanswer := (hP.evaluateAuxiliary (startingPoint P s)).answer _ _ h.view
  have hkeeps := (hP.evaluateAuxiliary (startingPoint P s)).keeps
  rw [prelude_started P s h.started, prelude_started P s' h.started', h.atEvent, h.startingPoint]
  split
  · unfold updateAuxiliary
    rw [ask_bind_apply, ask_bind_apply]
    have hanswer' : (P.model.evaluateAuxiliary (startingPoint P s) (s'.begun P).model).1 =
        (P.model.evaluateAuxiliary (startingPoint P s) (s.begun P).model).1 := hanswer.symm
    rw [hanswer']
    cases (P.model.evaluateAuxiliary (startingPoint P s) (s.begun P).model).1 with
    | ok _ => exact ⟨⟨_, _, _, hkeeps _, rfl⟩, _, _, _, hkeeps _, rfl⟩
    | error failure =>
      cases failure with
      | recoverable _ => exact ⟨⟨_, _, _, hkeeps _, rfl⟩, _, _, _, hkeeps _, rfl⟩
      | fatal _ => exact ⟨rfl, ⟨_, _, _, hkeeps _, rfl⟩, _, _, _, hkeeps _, rfl⟩
  · exact ⟨⟨_, _, _, rfl, rfl⟩, _, _, _, rfl, rfl⟩

theorem solveAction_abreast (hP : Determined P.model view) (hdamped : P.options.method = .damped)
    (h : Abreast view s s') (hscale : s'.work.residualScale = s.work.residualScale)
    (hsolve : ∀ t t', Requested view (s.begun P) t → Requested view (s'.begun P) t' →
      outcomeOf (solveDamped P t) = outcomeOf (solveDamped P t')) :
    outcomeOf (solveAction P s) = outcomeOf (solveAction P s') := by
  have hmethod : solveByMethod P = solveDamped P := by
    unfold solveByMethod
    rw [hdamped]
  have hprelude := prelude_abreast hP h
  rw [solveAction_eq, hmethod]
  obtain ⟨_, _, t, t', hs, hs', ht, ht'⟩ | ⟨halt, t, t', hs, hs', ht, ht'⟩ := hprelude.ends
  · rw [bind_ok hs, bind_ok hs', outcome_unmarked, outcome_unmarked]
    exact hsolve t t' ht ht'
  · obtain ⟨_, _, _, _, rfl⟩ := ht
    obtain ⟨_, _, _, _, rfl⟩ := ht'
    have hx : (s'.begun P).x = (s.begun P).x := h.startingPoint
    have hscale' : (s'.begun P).work.residualScale = (s.begun P).work.residualScale := hscale
    rw [bind_error hs, bind_error hs']
    simp only [outcomeOf, hx, hscale']

/-- A block that was set up and stands at the same point as a fresh one. -/
structure Twin (view : σ → ν) (b b' : Block α σ n) : Prop where
  problem : b'.problem = b.problem
  abreast : Abreast view b.session b'.session
  fresh : b'.session.work = Workspace.fresh n

/-- The block with bounds, scales of the unknowns and the pattern derived. Its next solve is not taken
for the first one. -/
def Block.settled (b : Block α σ n) : Block α σ n :=
  { b with session := b.session.derived b.problem }

/-- The residual is defined where the next solve of the block starts. -/
def Block.Begins (b : Block α σ n) : Prop :=
  ∃ f, (b.problem.model.evaluate (startingPoint b.problem b.session) b.session.model).1 = .ok f ∧
    allFinite f = true

theorem Session.Clean.requested (h : s.Clean P) (ht : Requested view (s.begun P) t) : t.Clean P := by
  obtain ⟨_, _, _, _, rfl⟩ := ht
  exact ⟨h.due, h.manual, h.singular, h.mismatches⟩

omit [Scalar α] in
theorem Requested.work [Scalar α] (h : Requested view (s.begun P) t) : t.work = s.work := by
  obtain ⟨_, _, _, _, rfl⟩ := h
  rfl

theorem Session.Waiting.begun (hmodel : Foreseen P.model view) (h : s.Waiting P)
    (hstarted : s.phase ≠ .untouched) (ht : Requested view (s.begun P) t) : t.Waiting P :=
  (Session.Waiting.requested (s := s.begun P) hmodel (h.moved hstarted) hstarted ht).2

theorem Session.Waiting.unserved (h : s.Waiting P) (hready : s.work.ready = true) :
    s.Unserved P (usablePattern? P s.model) :=
  h.resolve_left fun hwork => Bool.false_ne_true ((unready_fresh hwork).symm.trans hready)

theorem derived_requested (hmodel : Foreseen P.model view)
    (ht : Requested view ((s.derived P).begun P) t) :
    ∃ u, Requested view (s.begun P) u ∧ t = u.derived P := by
  obtain ⟨model, notices, calls, hview, rfl⟩ := ht
  have hpattern : usablePattern? P model = usablePattern? P s.model :=
    usablePattern_eq hmodel hview.symm
  refine ⟨_, ⟨model, notices, calls, hview, rfl⟩, ?_⟩
  unfold Session.derived
  dsimp only
  rw [hpattern]
  rfl

/-- Where there is nothing to scale and the residual is defined at the start, a first solve is like any
other. -/
theorem outcome_settled {b : Block α σ n} (hmodel : Foreseen b.problem.model view)
    (hdamped : b.problem.options.method = .damped) (hstarted : b.session.phase ≠ .untouched)
    (hfresh : b.session.work = Workspace.fresh n)
    (hscaling : b.problem.options.residualScaling = .none) (hbegins : b.Begins) :
    b.outcome = b.settled.outcome := by
  obtain ⟨f, hf, hfinite⟩ := hbegins
  have hplace : Abreast view b.session b.session :=
    ⟨hstarted, hstarted, rfl, rfl, rfl, rfl, rfl, rfl⟩
  rw [Block.outcome_eq, Block.outcome_eq]
  refine solveAction_abreast hmodel.toDetermined hdamped hplace.second_derived rfl
    fun t t' ht ht' => ?_
  obtain ⟨u, hu, rfl⟩ := derived_requested hmodel ht'
  have hanswer : (b.problem.model.evaluate t.x t.model).1 = .ok f := by
    obtain ⟨_, _, _, hview, rfl⟩ := ht
    exact ((hmodel.evaluate _).answer _ _ hview).trans hf
  exact solveDamped_unscaled hmodel (hplace.requested ht hu) (ht.work.trans hfresh)
    (hu.work.trans hfresh) hscaling hanswer hfinite

theorem Twin.begins {b b' : Block α σ n} (h : Twin view b b')
    (hmodel : Determined b.problem.model view) (hbegins : b.Begins) : b'.Begins := by
  obtain ⟨f, hf, hfinite⟩ := hbegins
  refine ⟨f, ?_, hfinite⟩
  rw [h.problem, h.abreast.startingPoint]
  exact ((hmodel.evaluate _).answer _ _ h.abreast.view).symm.trans hf

/-- Before its first solve a block may be asked for its Jacobian, and its solves may be refused for want
of a residual where they start. As long as the block is not set up by that, its next solve comes to what
the first solve of a fresh block at the same point comes to. Once it is set up, the next solve is no
longer taken for the first one. That shows in the outcome only where there are residual scales to
compute, or where the residual is undefined at the start. -/
theorem solve_unsolved {b₀ b b' : Block α σ n} (h : Unsolved b₀ b)
    (hmodel : Foreseen b₀.problem.model view) (hdamped : b₀.problem.options.method = .damped)
    (hfresh : b₀.session.work = Workspace.fresh n) (hclean : b.session.Clean b.problem)
    (htwin : Twin view b b') :
    (b.session.work.ready = false → b.outcome = b'.outcome) ∧
      (b.session.work.ready = true → b.outcome = b'.settled.outcome) ∧
      (b.problem.options.residualScaling = .none → b.Begins → b.outcome = b'.outcome) := by
  obtain ⟨hproblem, hwaiting⟩ := h.waiting hmodel hdamped hfresh
  rw [← hproblem] at hmodel hdamped hwaiting
  have hplace := htwin.abreast
  have hunready : b.session.work.ready = false → b.outcome = b'.outcome := by
    intro hready
    have hwork : b.session.work = Workspace.fresh n := hwaiting.resolve_right fun hunserved =>
      Bool.false_ne_true (hready.symm.trans hunserved.ready)
    rw [Block.outcome_eq, Block.outcome_eq, htwin.problem]
    refine solveAction_abreast hmodel.toDetermined hdamped hplace ?_ fun t t' ht ht' => ?_
    · rw [hwork, htwin.fresh]
    · exact solveDamped_fresh hmodel (hplace.requested ht ht') (ht.work.trans hwork)
        (ht'.work.trans htwin.fresh)
  have hready : b.session.work.ready = true → b.outcome = b'.settled.outcome := by
    intro hready
    have hunserved := hwaiting.unserved hready
    rw [Block.outcome_eq, Block.outcome_eq]
    unfold Block.settled
    dsimp only
    rw [htwin.problem]
    refine solveAction_abreast hmodel.toDetermined hdamped hplace.second_derived ?_
      fun t t' ht ht' => ?_
    · rw [hunserved.residualScale]
      unfold Session.derived
      rw [htwin.fresh]
      rfl
    · obtain ⟨u, hu, rfl⟩ := derived_requested hmodel ht'
      have hready' : t.work.ready = true := (congrArg Workspace.ready ht.work).trans hready
      exact solveDamped_settled hmodel (hplace.requested ht hu)
        ((hwaiting.begun hmodel hplace.started ht).unserved hready') (hclean.requested ht)
        (hu.work.trans htwin.fresh)
  refine ⟨hunready, hready, fun hscaling hbegins => ?_⟩
  cases hcase : b.session.work.ready with
  | false => exact hunready hcase
  | true =>
    rw [← htwin.problem] at hmodel hdamped hscaling
    exact (hready hcase).trans (outcome_settled hmodel hdamped hplace.started' htwin.fresh hscaling
      (htwin.begins (htwin.problem ▸ hmodel.toDetermined) hbegins)).symm

end

theorem foreseen_pointwise {α : Type} [Scalar α] {n : Nat} (options : Options α)
    (initial : Vector α n) (f : Vector α n → Except EvalFailure (Vector α n)) :
    Foreseen (Block.pointwise options initial f).problem.model fun s => s where
  toDetermined := determined_pointwise options initial f
  pattern _ _ _ := rfl

set_option maxRecDepth 100000 in
/-- Once the block was asked for its Jacobian, its first solve makes one attempt instead of two. -/
theorem solve_unsolved_inspected :
    let b := twoBlock.evaluateJacobian.2
    let b' := (twoBlock.setPoint #[1]).2
    b.outcome = b'.settled.outcome ∧ b.outcome ≠ b'.outcome := by
  intro b b'
  have hproblem : b.problem = twoBlock.problem := Block.perform_problem _ _
  have hproblem' : b'.problem = twoBlock.problem := Block.perform_problem _ _
  have hclean : b.session.Clean b.problem := by
    rw [hproblem]
    exact ⟨.inr (.inr ⟨rfl, rfl⟩), nofun, by decide +kernel, by decide +kernel⟩
  have hplace : Abreast (fun s : Unit => s) b.session b'.session :=
    ⟨by decide +kernel, by decide +kernel, by decide +kernel, by decide +kernel, by decide +kernel,
      by decide +kernel, by decide +kernel, rfl⟩
  have htwin : Twin (fun s : Unit => s) b b' := ⟨hproblem'.trans hproblem.symm, hplace, rfl⟩
  have hready : b.session.work.ready = true := by decide +kernel
  have hattempts : b.attempts? ≠ b'.attempts? := by decide +kernel
  refine ⟨(solve_unsolved (.evaluateJacobian .begin) (foreseen_pointwise _ _ _) rfl rfl hclean
    htwin).2.1 hready, fun h => hattempts ?_⟩
  exact congrArg (fun r => r.1.toOption.map Report.attempts) h

end AlgebraicLoop
