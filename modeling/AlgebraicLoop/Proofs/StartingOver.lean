import AlgebraicLoop.Proofs.FirstSolves

/-!
# Starting over

A block that was torn down keeps its point, and with it more than the point: its bounds and nominal
values, the bracket of its last refinement, the mark that an event came after its last Jacobian, the
state of its model. None of this tells it apart from a new block that is put at the same point. The
bounds and nominal values of the new block are the same ones, since the model gives the same start
values again. The bracket is emptied before it is read, if it is read at all, and the mark counts only
for a Jacobian, which neither block has.

* `Handled`, `Handled.launched`: the blocks that any operations lead to, and the start values of
  those that have started;
* `project_project`, `Block.setPoint_new`: the point that a new block takes over;
* `solveByMethod_fresh`: two solves with fresh workspaces, by any method;
* `solve_torn_down`: a block that was torn down, and a new one.
-/

namespace AlgebraicLoop
set_option autoImplicit false

section
variable {α σ ν : Type} [Scalar α] {n : Nat} {P : Problem α σ n} {view : σ → ν}
  {s t : Session α σ n} {g : Givens α n}

/-! ## Models that give the same start values again -/

/-- A model whose answers are functions of the request and of a view of its state, and that gives the
same start values whenever it is asked for them. -/
structure Repeatable (model : Model α σ n) (view : σ → ν) : Prop extends Foreseen model view where
  start : ∀ m m', (model.start (StartValues.default n) m).1 =
    (model.start (StartValues.default n) m').1
  startKeeps : ∀ m, view (model.start (StartValues.default n) m).2 = view m

/-! ## What lasts of the start -/

/-- The blocks that any operations lead to, whatever checkpoints they went back to. -/
inductive Handled : Block α σ n → Prop where
  | create {label : String} {model : Model α σ n} {state : σ} {options : Options α}
      {auxiliaryCount : Nat} {variability : Variability} {b : Block α σ n} :
      Block.create label model state options auxiliaryCount variability = .ok b → Handled b
  | after {b : Block α σ n} (operation : Operation α) : Handled b → Handled (b.after operation)
  | notifyEvent {b : Block α σ n} : Handled b → Handled b.notifyEvent
  | modifyModel {b : Block α σ n} (change : σ → σ) : Handled b → Handled (b.modifyModel change)
  | teardown {b : Block α σ n} : Handled b → Handled b.teardown
  | restore {b : Block α σ n} {m : Nat} (checkpoint : Checkpoint α m) : Handled b →
      Handled (b.restore checkpoint).2

/-- The session has started from values that the model gives in every state. -/
def Session.Launched (P : Problem α σ n) (s : Session α σ n) : Prop :=
  ∃ g : Givens α n, (∀ m, (P.model.start (StartValues.default n) m).1 = .ok g.values) ∧
    g.Ordered ∧ s.StartedFrom g

theorem Session.StartedFrom.keep (h : s.StartedFrom g) (hphase : t.phase ≠ .untouched)
    (hgiven : (t.lower, t.upper, t.nominal) = (s.lower, s.upper, s.nominal)) :
    t.StartedFrom g := by
  obtain ⟨hlower, hrest⟩ := Prod.mk.inj hgiven
  obtain ⟨hupper, hnominal⟩ := Prod.mk.inj hrest
  exact ⟨hphase, hlower.trans h.lower, hupper.trans h.upper, hnominal.trans h.nominal⟩

/-- That a block has started from values of some kind lasts. -/
theorem lasting_startedFrom (P : Problem α σ n) (R : Givens α n → Prop) :
    Lasting P fun s => ∃ g, R g ∧ s.StartedFrom g where
  started _ := fun ⟨_, _, hg⟩ => hg.started
  light s t h := fun ⟨g, hR, hg⟩ => by
    obtain ⟨hphase, _⟩ := Prod.mk.inj h.stage
    exact ⟨g, hR, hg.keep (hphase ▸ hg.started) h.given⟩
  setting s t h ht := fun ⟨g, hR, hg⟩ =>
    ⟨g, hR, hg.keep ht (congrArg (fun p : Setting α n => (p.lower, p.upper, p.nominal)) h)⟩
  setUp _ := after_setUp (fun _ => id) fun _ ⟨g, hR, hg⟩ => ⟨g, hR, hg.keep hg.started rfl⟩
  rewind _ _ _ := fun ⟨g, hR, hg⟩ => ⟨g, hR, hg.keep hg.started rfl⟩

/-- A block that has started did so from values that its model gave in some state. -/
theorem Handled.startedFrom {b : Block α σ n} (hb : Handled b) {R : Givens α n → Prop}
    (hR : ∀ m g, (b.problem.model.start (StartValues.default n) m).1 = .ok g.values → g.Ordered →
      R g) :
    b.session.phase = .untouched ∨ ∃ g, R g ∧ b.session.StartedFrom g := by
  have keep : ∀ {s t : Session α σ n}, (s.phase = .untouched ∨ ∃ g, R g ∧ s.StartedFrom g) →
      t.phase = s.phase → (t.lower, t.upper, t.nominal) = (s.lower, s.upper, s.nominal) →
        t.phase = .untouched ∨ ∃ g, R g ∧ t.StartedFrom g := fun h hphase hgiven =>
    h.imp hphase.trans fun ⟨g, hg, hfrom⟩ => ⟨g, hg, hfrom.keep (hphase ▸ hfrom.started) hgiven⟩
  induction hb with
  | create h =>
    obtain ⟨_, rfl⟩ := Block.create_eq_ok h
    exact .inl rfl
  | @after b operation _ ih =>
    rw [b.after_problem] at hR
    by_cases hop : operation = .completedOuterStep
    · subst hop
      exact keep (ih hR) rfl rfl
    -- Only the first success of the start takes values, and nothing replaces them afterwards.
    refine (lasting_startedFrom b.problem R).after
      (Q := fun s => s.phase = .untouched ∨ ∃ g, R g ∧ s.StartedFrom g) (fun _ => .inr)
      (fun k => ?_) (ih hR) hop
    obtain huntouched | ⟨g, hg, hfrom⟩ := ih hR
    · refine After.mono (prepareUnknowns_untouched _ huntouched) (fun _ t _ ht => ?_)
        fun _ t _ ht => .inl (ht.phase.trans huntouched)
      obtain ⟨g, hanswer, hordered, hfrom⟩ := ht.startedFrom
      exact ⟨g, hR _ g hanswer hordered, hfrom⟩
    · exact after_prepareUnknowns (fun _ => ⟨g, hg, hfrom.keep hfrom.started rfl⟩)
        (fun _ _ h _ _ => absurd h hfrom.started) fun _ _ h _ => absurd h hfrom.started
  | notifyEvent _ ih => exact keep (ih hR) rfl rfl
  | modifyModel _ _ ih => exact keep (ih hR) rfl rfl
  | teardown _ ih => exact keep (ih hR) rfl rfl
  | @restore b _ c _ ih =>
    obtain ⟨c', e⟩ | e := b.restore_session c
    · rw [e] at hR ⊢
      exact keep (ih hR) rfl rfl
    · rw [e] at hR ⊢
      exact ih hR

/-- A block that has started did so from values that its model still gives. -/
theorem Handled.launched {b : Block α σ n} (hb : Handled b)
    (hstart : ∀ m m', (b.problem.model.start (StartValues.default n) m).1 =
      (b.problem.model.start (StartValues.default n) m').1) :
    b.session.phase = .untouched ∨ b.session.Launched b.problem := by
  refine (hb.startedFrom (R := fun g => (∀ m, (b.problem.model.start (StartValues.default n) m).1 =
    .ok g.values) ∧ g.Ordered) fun m g hanswer hordered => ?_).imp_right fun ⟨g, hg, hfrom⟩ => ?_
  · exact ⟨fun m' => (hstart m' m).trans hanswer, hordered⟩
  · exact ⟨g, hg.1, hg.2, hfrom⟩

theorem Handled.size_ne_zero {b : Block α σ n} (hb : Handled b) : n ≠ 0 := by
  induction hb with
  | create h => exact (Block.create_eq_ok h).1
  | after _ _ ih | notifyEvent _ ih | modifyModel _ _ ih | teardown _ ih | restore _ _ ih => exact ih

/-! ## The point that is taken over -/

/-- A number that was moved between two bounds in order stays where it is. -/
theorem smaller_larger_again {lower upper x : α} (h : ¬ lower > upper) :
    smaller (larger (smaller (larger x lower) upper) lower) upper =
      smaller (larger x lower) upper := by
  have hlower : larger lower lower = lower := by
    unfold larger
    split <;> rfl
  have hupper : isNaN upper = false → larger upper lower = upper := by
    intro hreal
    unfold larger
    rw [if_neg]
    rintro (hnan | hlt)
    · exact Bool.false_ne_true (hreal.symm.trans hnan)
    · exact h hlt
  have hagain : larger (larger x lower) lower = larger x lower := by
    by_cases hx : isNaN x ∨ x < lower
    · have hlarger : larger x lower = lower := if_pos hx
      rw [hlarger, hlower]
    · have hlarger : larger x lower = x := if_neg hx
      rw [hlarger, hlarger]
  by_cases hbelow : isNaN upper ∨ larger x lower < upper
  · have hsmaller : smaller (larger x lower) upper = larger x lower := if_pos hbelow
    rw [hsmaller, hagain, hsmaller]
  · have hsmaller : smaller (larger x lower) upper = upper := if_neg hbelow
    have hreal : isNaN upper = false := Bool.eq_false_iff.2 fun hnan => hbelow (.inl hnan)
    rw [hsmaller, hupper hreal]
    unfold smaller
    split <;> rfl

theorem project_project {lower upper : Vector α n} (x : Vector α n)
    (h : ∀ i : Fin n, ¬ lower[i] > upper[i]) :
    project lower upper (project lower upper x) = project lower upper x := by
  refine Vector.ext fun i hi => ?_
  have hproject : ∀ y : Vector α n, (project lower upper y)[i] =
      if smaller (larger y[i] lower[i]) upper[i] == y[i] then y[i]
      else smaller (larger y[i] lower[i]) upper[i] := fun y => Vector.getElem_ofFn hi
  rw [hproject (project lower upper x)]
  by_cases hx : (smaller (larger x[i] lower[i]) upper[i] == x[i]) = true
  · have hstays : (project lower upper x)[i] = x[i] := (hproject x).trans (if_pos hx)
    rw [hstays, if_pos hx]
  · have hmoved : (project lower upper x)[i] = smaller (larger x[i] lower[i]) upper[i] :=
      (hproject x).trans (if_neg hx)
    have hagain : smaller (larger (smaller (larger x[i] lower[i]) upper[i]) lower[i]) upper[i] =
        smaller (larger x[i] lower[i]) upper[i] := smaller_larger_again (h ⟨i, hi⟩)
    rw [hmoved, hagain]
    split <;> rfl

theorem Problem.confined_again (P : Problem α σ n) {lower upper : Vector α n} (x : Vector α n)
    (h : ∀ i : Fin n, ¬ lower[i] > upper[i]) :
    P.confined lower upper (P.confined lower upper x) = P.confined lower upper x := by
  unfold Problem.confined
  split
  · exact project_project x h
  · rfl

theorem setPointAction_givens (hs : s.phase = .untouched)
    (hanswer : (P.model.start (StartValues.default n) s.model).1 = .ok g.values) (hg : g.Ordered)
    (x : Vector α n) :
    ∃ notices, setPointAction P x.toArray s = .ok ()
      { s.startWith P g with
        x := P.confined g.lower g.upper x
        guessGiven := true
        model := (P.model.start (StartValues.default n) s.model).2
        notices
        calls := s.calls.push (.start (.ok g.values)) } := by
  obtain ⟨notices, hstart⟩ := prepareUnknowns_givens hs hanswer hg
  rw [setPointAction_eq, checkLength_vector, pure_bind]
  exact ⟨notices, (bind_ok hstart).trans (takePoint_apply P x _)⟩

/-- A block that was put at a point before anything else. -/
structure PutAt (P : Problem α σ n) (g : Givens α n) (x : Vector α n) (s t : Session α σ n) :
    Prop where
  startedFrom : t.StartedFrom g
  x : t.x = P.confined g.lower g.upper x
  work : t.work = s.work
  atEvent : t.atEvent = s.atEvent
  model : t.model = (P.model.start (StartValues.default n) s.model).2

theorem Block.setPoint_new {b : Block α σ n} (hb : b.session.phase = .untouched)
    (hanswer : (b.problem.model.start (StartValues.default n) b.session.model).1 = .ok g.values)
    (hg : g.Ordered) (x : Vector α n) :
    ∃ t, b.setPoint x.toArray = (.ok (), { b with session := t }) ∧
      PutAt b.problem g x b.session t := by
  obtain ⟨notices, hrun⟩ := setPointAction_givens hb hanswer hg x
  unfold Block.setPoint
  exact ⟨_, Block.perform_ok hrun, ⟨Phase.noConfusion, rfl, rfl, rfl⟩, rfl, rfl, rfl, rfl⟩

/-! ## Solves with a fresh workspace -/

variable {past bracketed : Bool} {a b : Nat} {β : Type}

theorem respects_once (hmodel : Foreseen P.model view)
    {run : Problem α σ n → Tolerances α → Action α σ n (Attempt α)}
    (hrun : ∀ tol, Respects past bracketed view a b (run P tol)) :
    Respects past bracketed view a b (solveOnce P run) := by
  refine ((respects_setUp hmodel).bind fun _ => respects_pure _).bind fun _ => ?_
  refine Respects.bind (respects_modify (fun s t h m => h.shown m) fun _ => rfl) fun _ => ?_
  exact (hrun _).bind fun _ => respects_closeSolve hmodel.toDetermined _

/-- The solves of two sessions without a workspace run side by side, by any method. -/
theorem solveByMethod_fresh (hmodel : Foreseen P.model view) (hs : s.work = Workspace.fresh n)
    (ht : t.work = Workspace.fresh n) (h : Alike true false view a b s t) :
    Together true false view a b (solveByMethod P s) (solveByMethod P t) := by
  have hC : Closed P true (Session.setting P) fun _ act => Respects true false view a b act :=
    setting_respects hmodel.toDetermined
  unfold solveByMethod
  cases P.options.method with
  | damped => exact solveDamped_alike hmodel (unready_fresh hs) (unready_fresh ht) h
  | undamped => exact respects_once hmodel hC.stage.runUndamped s t h
  | direct => exact respects_once hmodel hC.stage.runDirect s t h

/-- The solves of two started sessions without a workspace, when no event is pending. -/
theorem solveAction_fresh (hmodel : Foreseen P.model view) (hs : s.StartedFrom g)
    (ht : t.StartedFrom g) (hevent : s.atEvent = false) (hevent' : t.atEvent = false)
    (hpoint : P.confined g.lower g.upper s.x = P.confined g.lower g.upper t.x)
    (hwork : s.work = Workspace.fresh n) (hwork' : t.work = Workspace.fresh n)
    (hview : view s.model = view t.model) :
    Together true false view s.notices.size t.notices.size (solveAction P s) (solveAction P t) := by
  have hbegun : ∀ {u : Session α σ n}, u.StartedFrom g →
      (u.begun P).x = P.confined g.lower g.upper u.x := by
    intro u hu
    rw [← hu.lower, ← hu.upper]
    rfl
  have hplace : Abreast view (s.begun P) (t.begun P) :=
    { started := hs.started
      started' := ht.started
      x := (hbegun ht).trans (hpoint.symm.trans (hbegun hs).symm)
      lower := ht.lower.trans hs.lower.symm
      upper := ht.upper.trans hs.upper.symm
      nominal := ht.nominal.trans hs.nominal.symm
      atEvent := hevent'.trans hevent.symm
      view := hview }
  have halike := hplace.alike hwork hwork'
  rw [solveAction_eq, bind_ok (prelude_eventless P hs.started hevent),
    bind_ok (prelude_eventless P ht.started hevent')]
  exact (solveByMethod_fresh (s := s.begun P) (t := t.begun P) hmodel hwork hwork' halike).unmarked

/-! ## Whole solves -/

/-- The solves of two blocks cannot be told apart: they come to the same, with the same attempts and
the same trace, give the same notices and leave the blocks at the same point, with the same scales and
as many disagreements counted. -/
structure SameSolve (b b' : Block α σ n) : Prop where
  result : b.solve.1 = b'.solve.1
  x : b.solve.2.session.x = b'.solve.2.session.x
  residualScale : b.solve.2.session.work.residualScale = b'.solve.2.session.work.residualScale
  jacobianMismatches : b.solve.2.session.work.jacobianMismatches =
    b'.solve.2.session.work.jacobianMismatches
  notices : b.solve.2.session.notices.toList.drop b.session.notices.size =
    b'.solve.2.session.notices.toList.drop b'.session.notices.size

theorem SameSolve.of_ends {c c' : Block α σ n} {r : Except (Halt α) (Report α)}
    (hs : c.solve = (r, ⟨P, s⟩)) (ht : c'.solve = (r, ⟨P, t⟩))
    (h : Alike past bracketed view c.session.notices.size c'.session.notices.size s t) :
    SameSolve c c' := by
  have hshown := h.shown s.model
  have hx : s.x = t.x := congrArg (fun u => u.x) hshown
  have hscale : s.work.residualScale = t.work.residualScale :=
    congrArg (fun u => u.work.residualScale) hshown
  have hmismatches : s.work.jacobianMismatches = t.work.jacobianMismatches :=
    congrArg (fun u => u.work.jacobianMismatches) hshown
  constructor
  · rw [hs, ht]
  · rw [hs, ht]
    exact hx
  · rw [hs, ht]
    exact hscale
  · rw [hs, ht]
    exact hmismatches
  · rw [hs, ht]
    exact h.notices

theorem SameSolve.of_together
    (h : Together past bracketed view s.notices.size t.notices.size (solveAction P s)
      (solveAction P t)) : SameSolve ⟨P, s⟩ ⟨P, t⟩ := by
  obtain ⟨report, s', t', hs, ht, halike⟩ | ⟨halt, s', t', hs, ht, halike⟩ := h.ends
  · exact .of_ends (Block.perform_ok (b := ⟨P, s⟩) hs) (Block.perform_ok (b := ⟨P, t⟩) ht) halike
  · exact .of_ends (Block.perform_error (b := ⟨P, s⟩) hs) (Block.perform_error (b := ⟨P, t⟩) ht)
      halike

/-- Whatever was done with a block that has started, when no event is pending and the block is torn
down, its next solve is that of a new block with the same label, model, options and variability, put
at the same point. This holds for every method and of every model that is a function of the point, as
long as it gives the same start values again. -/
theorem solve_torn_down {b : Block α σ n} (hb : Handled b)
    (hmodel : Repeatable b.problem.model view) (hstarted : b.session.phase ≠ .untouched)
    (hevent : b.session.atEvent = false) {state : σ} (hstate : view state = view b.session.model) :
    ∃ fresh given : Block α σ n,
      Block.create b.problem.label b.problem.model state b.problem.options b.problem.auxiliaryCount
        b.problem.variability = .ok fresh ∧
      fresh.setPoint b.session.x.toArray = (.ok (), given) ∧ SameSolve b.teardown given := by
  obtain ⟨g, hanswer, hordered, hg⟩ := (hb.launched hmodel.start).resolve_left hstarted
  obtain ⟨t, hput, ht⟩ := Block.setPoint_new (b := ⟨b.problem, Session.fresh n state⟩) rfl
    (hanswer state) hordered b.session.x
  refine ⟨⟨b.problem, Session.fresh n state⟩, ⟨b.problem, t⟩, ?_, hput, ?_⟩
  · exact if_neg hb.size_ne_zero
  have hview : view b.session.model = view t.model := by
    rw [ht.model, hmodel.startKeeps]
    exact hstate.symm
  have hpoint : b.problem.confined g.lower g.upper b.session.x =
      b.problem.confined g.lower g.upper t.x := by
    rw [ht.x, b.problem.confined_again b.session.x hordered]
  exact SameSolve.of_together (solveAction_fresh (s := b.teardown.session) hmodel.toForeseen
    (hg.keep hg.started rfl) ht.startedFrom hevent ht.atEvent hpoint rfl ht.work hview)

end

/-! ## A block of binary64 numbers -/

theorem repeatable_pointwise {α : Type} [Scalar α] {n : Nat} (options : Options α)
    (initial : Vector α n) (f : Vector α n → Except EvalFailure (Vector α n)) :
    Repeatable (Block.pointwise options initial f).problem.model fun s => s where
  toForeseen := foreseen_pointwise options initial f
  start _ _ := rfl
  startKeeps _ := rfl

set_option maxRecDepth 100000 in
theorem solve_torn_down_two :
    let b := (twoBlock.solve.2.setPoint #[5]).2
    b.session.phase ≠ .untouched ∧ b.session.atEvent = false ∧
      ∃ fresh given : Block Float Unit 1,
        Block.create b.problem.label b.problem.model () b.problem.options b.problem.auxiliaryCount
          b.problem.variability = .ok fresh ∧
        fresh.setPoint b.session.x.toArray = (.ok (), given) ∧ SameSolve b.teardown given := by
  intro b
  have hproblem : b.problem = twoBlock.problem :=
    (Block.perform_problem _ _).trans (Block.perform_problem _ _)
  have hcreated : Handled twoBlock :=
    @Handled.create Float Unit _ 1 "loop" twoBlock.problem.model () Options.standard 0 .continuous
      twoBlock rfl
  have hhandled : Handled b := (hcreated.after .solve).after (.setPoint #[5])
  have hstarted : b.session.phase ≠ .untouched := by decide +kernel
  have hevent : b.session.atEvent = false := by decide +kernel
  have hmodel : Repeatable b.problem.model fun s : Unit => s := by
    rw [hproblem]
    exact repeatable_pointwise _ _ _
  exact ⟨hstarted, hevent, solve_torn_down hhandled hmodel hstarted hevent rfl⟩

end AlgebraicLoop
