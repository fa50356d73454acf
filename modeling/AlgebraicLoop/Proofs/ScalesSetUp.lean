import AlgebraicLoop.Proofs.EventHistories
import AlgebraicLoop.Proofs.FactorsInUse

/-!
# Where the scales of the unknowns come from

A block is set up once: its first operation after the start values, or after a tear-down, derives
the scales of the unknowns from the nominal values and marks the workspace as ready. A checkpoint
keeps the scales but not that mark. Going back to one that is older than the set-up therefore brings
the scales of a new workspace back, which are all one, into one that will not be set up again.

* `Calibrated`: what an operation that does not go back leaves of the scales;
* `Origins`, `Lived.origins`: histories of operations, with the origin of all scales on the way;
* `Lived.variableScale`: the two scales that a block can have, whatever was done to it;
* `scales_have_origin`: the scales of every block that is reached.
-/

namespace AlgebraicLoop
set_option autoImplicit false

section
variable {α σ : Type} [Scalar α] {n : Nat} {P : Problem α σ n} {s t u : Session α σ n}

/-! ## Without going back -/

/-- The scales that setting the session up gives its unknowns. -/
def Session.derivedScale (P : Problem α σ n) (s : Session α σ n) : Vector α n :=
  variableScales P.options.variableScaling s.nominal P.options.tolerance

/-- The second session has started, and follows on the first one without going back to a checkpoint:
its scales are those of the first one, unless it was set up in between. -/
structure Calibrated (P : Problem α σ n) (s t : Session α σ n) : Prop where
  started : t.phase ≠ .untouched
  nominal : s.phase ≠ .untouched → t.nominal = s.nominal
  accepted : t.work.accepted = s.work.accepted
  scale : t.work.ready = s.work.ready ∧ t.work.variableScale = s.work.variableScale ∨
    s.work.ready = false ∧ t.work.ready = true ∧ t.work.variableScale = t.derivedScale P

namespace Calibrated

theorem refl (hs : s.phase ≠ .untouched) : Calibrated P s s :=
  ⟨hs, fun _ => rfl, rfl, .inl ⟨rfl, rfl⟩⟩

theorem keep (h : Calibrated P s t) (hphase : u.phase ≠ .untouched)
    (hnominal : u.nominal = t.nominal) (haccepted : u.work.accepted = t.work.accepted)
    (hready : u.work.ready = t.work.ready)
    (hscale : u.work.variableScale = t.work.variableScale) : Calibrated P s u where
  started := hphase
  nominal hs := hnominal.trans (h.nominal hs)
  accepted := haccepted.trans h.accepted
  scale := by
    unfold Session.derivedScale
    rw [hready, hscale, hnominal]
    exact h.scale

theorem setUp (h : Calibrated P s t) (hready : t.work.ready = false) :
    Calibrated P s (t.derived P) := by
  refine ⟨h.started, h.nominal, h.accepted, .inr ⟨?_, rfl, rfl⟩⟩
  obtain ⟨hsame, _⟩ | ⟨hbefore, _, _⟩ := h.scale
  · exact hsame.symm.trans hready
  · exact hbefore

end Calibrated

/-- Whatever an operation does, it leaves the scales or sets them up, where it does not go back. -/
theorem steady_calibrated (P : Problem α σ n) (s : Session α σ n) : Steady P (Calibrated P s) where
  started _ ht := ht.started
  light t u h ht := by
    have hphase : u.phase = t.phase := congrArg Prod.fst h.stage
    have hnominal : u.nominal = t.nominal := congrArg (fun p => p.2.2) h.given
    have hready : u.work.ready = t.work.ready := congrArg (fun p => p.2.2) h.box
    exact ht.keep (by rw [hphase]; exact ht.started) hnominal h.accepted hready
      (congrArg Prod.fst h.scales)
  setting _ _ h hphase ht :=
    ht.keep hphase (congrArg Setting.nominal h) (congrArg Setting.accepted h)
      (congrArg Setting.ready h) (congrArg Setting.variableScale h)
  setUp _ := after_setUp (fun _ => id) fun hready ht => ht.setUp hready

/-- An operation starts a block from which it can take start values, or leaves it as it was. -/
def Onwards (P : Problem α σ n) (s t : Session α σ n) : Prop :=
  Calibrated P s t ∨ s.phase = .untouched ∧ t.phase = .untouched ∧ t.work = s.work

theorem prepareUnknowns_onwards (P : Problem α σ n) (s : Session α σ n) (solves : Nat) :
    After (prepareUnknowns P) { s with counters := { s.counters with solves } }
      (fun _ t => Calibrated P s t) fun _ t => Onwards P s t := by
  by_cases hs : s.phase = .untouched
  · refine (prepareUnknowns_untouched P
      (s := { s with counters := { s.counters with solves } }) hs).mono (fun _ t _ h => ?_)
      fun _ t _ h => .inr ⟨hs, h.phase.trans hs, h.work⟩
    have hwork : t.work = s.work := h.work
    refine ⟨?_, fun hne => absurd hs hne, ?_, .inl ⟨?_, ?_⟩⟩
    · rw [h.phase]
      exact Phase.noConfusion
    all_goals rw [hwork]
  · rw [after_congr (prepareUnknowns_again (s := { s with counters := { s.counters with solves } }) hs)]
    exact (Calibrated.refl hs).keep hs rfl rfl rfl rfl

/-! ## How a solve opens -/

/-- What leads forward leads through the opening of a solve that does not go back. -/
theorem Forward.openSolve {R : Session α σ n → Session α σ n → Prop} (hR : Forward P R)
    (h : resumed? P s = none) : After (openSolve P) s (fun _ t => R s t) fun _ t => R s t := by
  have hemptied : ∀ t : Session α σ n, R t t.emptied := fun t =>
    hR.light t _ ⟨rfl, rfl, .inr rfl, rfl, rfl, .inl rfl, rfl, rfl, rfl, rfl⟩
  have onward : ∀ {u : Session α σ n} {a : Action α σ n Bool}, R s u → Follows R a →
      After a u (fun _ t => R s t) fun _ t => R s t := fun hu ha =>
    (ha _).mono (fun _ _ _ => hR.trans _ _ _ hu) fun _ _ _ => hR.trans _ _ _ hu
  refine after_openSolve (fun hs => ?_) (fun _ _ => onward (hemptied s) (hR.settlePoint false))
    fun c hc => ?_
  · have hderived : R s (s.derived P) := hR.setUp.ok (setUp_unready P hs)
    exact onward (hR.trans _ _ _ hderived (hemptied _))
      (hR.bind hR.checkStartingPoint fun _ => hR.settlePoint true)
  · rw [h] at hc
    cases hc

/-! ## Operations -/

/-- The checkpoint that the next solve of a block goes back to. Only the damped method starts from
an accepted outer step. -/
def Block.resumed? (b : Block α σ n) : Option (Checkpoint α n) :=
  if b.problem.options.method = .damped then AlgebraicLoop.resumed? b.problem b.session else none

/-- The method of a solve that does not go back. -/
theorem Steady.solveByMethod {I : Session α σ n → Prop} (h : Steady P I)
    (hstays : P.options.method = .damped → resumed? P s = none) (hs : I s) :
    After (solveByMethod P) s (fun _ t => I t) fun _ t => I t := by
  have hR := h.forward
  have steady : ∀ {β : Type} {a : Action α σ n β} {t : Session α σ n}, I t →
      Follows (fun s t => I s → I t) a → After a t (fun _ u => I u) fun _ u => I u :=
    fun {_ _ t} ht ha => (ha t).mono (fun _ _ _ h => h ht) fun _ _ _ h => h ht
  unfold AlgebraicLoop.solveByMethod
  split
  · next hmethod =>
    have hopen : After (openSolve P) s (fun _ t => I t) fun _ t => I t :=
      (hR.openSolve (hstays hmethod)).mono (fun _ _ _ h => h hs) fun _ _ _ h => h hs
    exact hopen.bind fun first t ht => steady ht (hR.attempts h.settles h.closed first)
  · exact steady hs (hR.once h.settles h.closed.stage.runUndamped)
  · exact steady hs (hR.once h.settles h.closed.stage.runDirect)

/-- A solve that does not go back. -/
theorem solveAction_onwards (hstays : P.options.method = .damped → resumed? P s = none) :
    After (solveAction P) s (fun _ t => Onwards P s t) fun _ t => Onwards P s t := by
  have h := steady_calibrated P s
  rw [solveAction_eq]
  have hprelude := (h.prelude (fun _ => .inl) (prepareUnknowns_onwards P s _)).mono
    (fun _ t hrun ht =>
      (⟨ht, (approached_prelude P).ok hrun⟩ : Calibrated P s t ∧ Approached P s t))
    fun _ _ _ h => h
  refine hprelude.bind fun _ t ⟨ht, happroached⟩ => ?_
  have hstays' : P.options.method = .damped → resumed? P t = none := fun hmethod => by
    rw [happroached.resumed]
    exact hstays hmethod
  have unmarked : ∀ u : Session α σ n, Calibrated P s u → Onwards P s u.unmarked := fun u hu =>
    .inl (h.light u _ ⟨rfl, rfl, .inl rfl, rfl, rfl, .inr rfl, rfl, rfl, rfl, rfl⟩ hu)
  rw [after_thenAlways]
  exact (h.solveByMethod hstays' ht).mono (fun _ u _ => unmarked u) fun _ u _ => unmarked u

/-- A solve that goes back to a checkpoint leaves the scales of that. -/
theorem solveAction_resumed {c : Checkpoint α n} (hmethod : P.options.method = .damped)
    (hresumed : resumed? P s = some c) (hs : s.phase ≠ .untouched) :
    After (solveAction P) s (fun _ t => Calibrated P (s.rewound c) t)
      fun _ t => Calibrated P (s.rewound c) t := by
  have hevent : s.atEvent = false := (resumed?_eq_some.1 hresumed).1.2.2.1
  have hprelude : prelude P s = .ok () (s.begun P) := by
    rw [prelude_started P s hs, hevent, if_neg fun h => Bool.false_ne_true h.1]
    rfl
  -- What begins a solve counts it and moves the point, on which the way back does not depend.
  have hresumed' : resumed? P (s.begun P) = some c := hresumed
  have h := steady_calibrated P (s.rewound c)
  have hback : Calibrated P (s.rewound c) ((s.begun P).emptied.rewound c) :=
    (Calibrated.refl (s := s.rewound c) hs).keep hs rfl rfl rfl rfl
  have unmarked : ∀ u : Session α σ n, Calibrated P (s.rewound c) u →
      Calibrated P (s.rewound c) u.unmarked := fun u hu =>
    h.light u _ ⟨rfl, rfl, .inl rfl, rfl, rfl, .inr rfl, rfl, rfl, rfl, rfl⟩ hu
  have hsolve : After (solveByMethod P) (s.begun P) (fun _ t => Calibrated P (s.rewound c) t)
      fun _ t => Calibrated P (s.rewound c) t := by
    unfold AlgebraicLoop.solveByMethod solveDamped
    rw [hmethod]
    dsimp only
    rw [after_bind, after_congr (openSolve_goes hresumed'), ← after_bind]
    have hR := h.forward
    exact (hR.bind (hR.settlePoint false) (fun first => hR.attempts h.settles h.closed first) _).mono
      (fun _ _ _ h => h hback) fun _ _ _ h => h hback
  rw [solveAction_eq, after_congr (bind_ok hprelude), after_thenAlways]
  exact hsolve.mono (fun _ u _ => unmarked u) fun _ u _ => unmarked u

theorem Block.onwards_after {b : Block α σ n} {operation : Operation α}
    (hop : operation ≠ .completedOuterStep) (hstays : operation = .solve → b.resumed? = none) :
    Onwards b.problem b.session (b.after operation).session := by
  have hself : Onwards b.problem b.session b.session := by
    by_cases hs : b.session.phase = .untouched
    · exact .inr ⟨hs, hs, rfl⟩
    · exact .inl (.refl hs)
  by_cases hsolve : operation = .solve
  · subst hsolve
    refine Block.perform_after (solveAction_onwards fun hmethod => ?_)
    have hnone := hstays rfl
    unfold Block.resumed? at hnone
    rw [if_pos hmethod] at hnone
    exact hnone
  · exact (steady_calibrated b.problem b.session).after (fun _ => .inl)
      (prepareUnknowns_onwards b.problem b.session b.session.counters.solves) hself hsolve hop

/-! ## Histories -/

/-- Where scales of the unknowns come from. -/
inductive ScaleOrigin where
  /-- A new workspace, whose scales are all one. -/
  | blank
  /-- The nominal values, from which a set-up derived them. -/
  | setUp
  deriving DecidableEq

/-- The scales that come from there. -/
def ScaleOrigin.scales (o : ScaleOrigin) (P : Problem α σ n) (s : Session α σ n) : Vector α n :=
  match o with
  | .blank => Vector.replicate n 1
  | .setUp => s.derivedScale P

/-- The origin of the scales after an operation that set the block up, or left its scales. -/
def ScaleOrigin.after (o : ScaleOrigin) (s t : Session α σ n) : ScaleOrigin :=
  if s.work.ready = false ∧ t.work.ready = true then .setUp else o

/-- The blocks that a history of operations leads to, with the origin of their scales, of the scales
of the accepted outer step, and of those of the checkpoints that were taken on the way. -/
inductive Origins :
    Block α σ n → ScaleOrigin → ScaleOrigin → List (Checkpoint α n × ScaleOrigin) → Prop where
  | create {label : String} {model : Model α σ n} {state : σ} {options : Options α}
      {auxiliaryCount : Nat} {variability : Variability} {b : Block α σ n} :
      Block.create label model state options auxiliaryCount variability = .ok b →
      Origins b .blank .blank []
  | onwards {b : Block α σ n} {now accepted : ScaleOrigin}
      {kept : List (Checkpoint α n × ScaleOrigin)} {operation : Operation α} :
      Origins b now accepted kept → operation ≠ .completedOuterStep →
      (operation = .solve → b.resumed? = none) →
      Origins (b.after operation) (now.after b.session (b.after operation).session) accepted kept
  /-- A solve that goes back to the accepted outer step. -/
  | resumed {b : Block α σ n} {now accepted : ScaleOrigin}
      {kept : List (Checkpoint α n × ScaleOrigin)} {c : Checkpoint α n} :
      Origins b now accepted kept → b.resumed? = some c → Origins b.solve.2 accepted accepted kept
  | completedOuterStep {b : Block α σ n} {now accepted : ScaleOrigin}
      {kept : List (Checkpoint α n × ScaleOrigin)} :
      Origins b now accepted kept → Origins b.completedOuterStep now now kept
  | notifyEvent {b : Block α σ n} {now accepted : ScaleOrigin}
      {kept : List (Checkpoint α n × ScaleOrigin)} :
      Origins b now accepted kept → Origins b.notifyEvent now accepted kept
  | modifyModel {b : Block α σ n} {now accepted : ScaleOrigin}
      {kept : List (Checkpoint α n × ScaleOrigin)} (change : σ → σ) :
      Origins b now accepted kept → Origins (b.modifyModel change) now accepted kept
  | teardown {b : Block α σ n} {now accepted : ScaleOrigin}
      {kept : List (Checkpoint α n × ScaleOrigin)} :
      Origins b now accepted kept → Origins b.teardown .blank .blank kept
  | checkpoint {b : Block α σ n} {now accepted : ScaleOrigin}
      {kept : List (Checkpoint α n × ScaleOrigin)} :
      Origins b now accepted kept → Origins b now accepted ((b.checkpoint, now) :: kept)
  | restore {b : Block α σ n} {now accepted before : ScaleOrigin}
      {kept : List (Checkpoint α n × ScaleOrigin)} {c : Checkpoint α n} :
      Origins b now accepted kept → (c, before) ∈ kept →
      Origins (b.restore c).2 before accepted kept

/-- Every history has its origins. -/
theorem Lived.origins {b : Block α σ n} {kept : List (Checkpoint α n)} (h : Lived b kept) :
    ∃ now accepted marked, Origins b now accepted marked ∧ marked.map Prod.fst = kept := by
  induction h with
  | create h => exact ⟨_, _, _, .create h, rfl⟩
  | @after b kept operation _ ih =>
    obtain ⟨now, accepted, marked, h, hkept⟩ := ih
    by_cases hop : operation = .completedOuterStep
    · subst hop
      exact ⟨_, _, _, h.completedOuterStep, hkept⟩
    · cases hresumed : b.resumed? with
      | none => exact ⟨_, _, _, h.onwards hop fun _ => hresumed, hkept⟩
      | some c =>
        by_cases hsolve : operation = .solve
        · subst hsolve
          exact ⟨_, _, _, h.resumed hresumed, hkept⟩
        · exact ⟨_, _, _, h.onwards hop fun h => absurd h hsolve, hkept⟩
  | notifyEvent _ ih =>
    obtain ⟨_, _, _, h, hkept⟩ := ih
    exact ⟨_, _, _, h.notifyEvent, hkept⟩
  | modifyModel change _ ih =>
    obtain ⟨_, _, _, h, hkept⟩ := ih
    exact ⟨_, _, _, h.modifyModel change, hkept⟩
  | teardown _ ih =>
    obtain ⟨_, _, _, h, hkept⟩ := ih
    exact ⟨_, _, _, h.teardown, hkept⟩
  | checkpoint _ ih =>
    obtain ⟨_, _, _, h, hkept⟩ := ih
    exact ⟨_, _, _, h.checkpoint, congrArg (List.cons _) hkept⟩
  | restore _ hc ih =>
    obtain ⟨_, _, _, h, hkept⟩ := ih
    rw [← hkept] at hc
    obtain ⟨p, hp, rfl⟩ := List.mem_map.1 hc
    exact ⟨_, _, _, h.restore hp, hkept⟩

theorem ScaleOrigin.scales_eq {o : ScaleOrigin} (hblank : s.phase = .untouched → o = .blank)
    (hnominal : s.phase ≠ .untouched → t.nominal = s.nominal) :
    o.scales P t = o.scales P s := by
  cases o with
  | blank => rfl
  | setUp =>
    have hs : s.phase ≠ .untouched := fun h => ScaleOrigin.noConfusion (hblank h)
    unfold ScaleOrigin.scales Session.derivedScale
    rw [hnominal hs]

/-- The scales of a block and of its checkpoints come from where they are said to, and a block that
has not started has none but those of new workspaces. -/
structure Block.Attributed (b : Block α σ n) (now accepted : ScaleOrigin)
    (kept : List (Checkpoint α n × ScaleOrigin)) : Prop where
  scale : b.session.work.variableScale = now.scales b.problem b.session
  step : ∀ c, b.session.work.accepted = some c →
    c.memory.variableScale = accepted.scales b.problem b.session
  taken : ∀ p ∈ kept, p.1.memory.variableScale = p.2.scales b.problem b.session
  untouched : b.session.phase = .untouched →
    b.session.work.ready = false ∧ now = .blank ∧ accepted = .blank ∧ ∀ p ∈ kept, p.2 = .blank

namespace Block.Attributed
variable {b : Block α σ n} {now accepted : ScaleOrigin} {kept : List (Checkpoint α n × ScaleOrigin)}

/-- A new workspace has the scales of one, and no accepted outer step. -/
theorem fresh (hwork : b.session.work = Workspace.fresh n)
    (htaken : ∀ p ∈ kept, p.1.memory.variableScale = p.2.scales b.problem b.session)
    (hblank : b.session.phase = .untouched → ∀ p ∈ kept, p.2 = .blank) :
    b.Attributed .blank .blank kept := by
  refine ⟨?_, fun c hc => ?_, htaken, fun hs => ⟨?_, rfl, rfl, hblank hs⟩⟩
  · rw [hwork]
    rfl
  · rw [hwork] at hc
    cases hc
  · rw [hwork]
    rfl

theorem started (h : b.Attributed now accepted kept) (hready : b.session.work.ready = true) :
    b.session.phase ≠ .untouched := by
  intro hs
  rw [(h.untouched hs).1] at hready
  cases hready

/-- The block may start, but keeps its nominal values once it has started. -/
theorem move (h : b.Attributed now accepted kept) {now' accepted' : ScaleOrigin}
    (hnominal : b.session.phase ≠ .untouched → t.nominal = b.session.nominal)
    (hphase : t.phase ≠ .untouched)
    (hscale : t.work.variableScale = now'.scales b.problem t)
    (haccepted : ∀ c, t.work.accepted = some c →
      c.memory.variableScale = accepted'.scales b.problem t) :
    ({ b with session := t } : Block α σ n).Attributed now' accepted' kept where
  scale := hscale
  step := haccepted
  taken p hp := by
    have hscales : p.2.scales b.problem t = p.2.scales b.problem b.session :=
      ScaleOrigin.scales_eq (fun hs => (h.untouched hs).2.2.2 p hp) hnominal
    exact (h.taken p hp).trans hscales.symm
  untouched hs := absurd hs hphase

theorem onwards (h : b.Attributed now accepted kept) (hst : Onwards b.problem b.session t) :
    ({ b with session := t } : Block α σ n).Attributed (now.after b.session t) accepted kept := by
  obtain hst | ⟨hs, ht, hwork⟩ := hst
  · refine h.move hst.nominal hst.started ?_ fun c hc => ?_
    · unfold ScaleOrigin.after
      obtain ⟨hready, hscale⟩ | ⟨hbefore, hready, hscale⟩ := hst.scale
      · have hsame : ¬ (b.session.work.ready = false ∧ t.work.ready = true) := by
          rintro ⟨hbefore, hafter⟩
          rw [hready, hbefore] at hafter
          cases hafter
        rw [if_neg hsame, hscale, h.scale]
        exact (ScaleOrigin.scales_eq (fun hs => (h.untouched hs).2.1) hst.nominal).symm
      · rw [if_pos ⟨hbefore, hready⟩]
        exact hscale
    · rw [hst.accepted] at hc
      rw [h.step c hc]
      exact (ScaleOrigin.scales_eq (fun hs => (h.untouched hs).2.2.1) hst.nominal).symm
  · obtain ⟨hready, rfl, rfl, hblank⟩ := h.untouched hs
    have hready' : t.work.ready = false := by rw [hwork]; exact hready
    have hnow : ScaleOrigin.after .blank b.session t = .blank := by
      unfold ScaleOrigin.after
      rw [hready', if_neg fun h => Bool.false_ne_true h.2]
    rw [hnow]
    refine ⟨?_, fun c hc => ?_, fun p hp => ?_, fun _ => ⟨hready', rfl, rfl, hblank⟩⟩
    · exact (congrArg (fun w => w.variableScale) hwork).trans h.scale
    · exact h.step c ((congrArg (fun w => w.accepted) hwork).symm.trans hc)
    · rw [h.taken p hp, hblank p hp]
      rfl

/-- A solve that goes back has an accepted outer step to go back to, and starts from there. -/
theorem goes (h : b.Attributed now accepted kept) {c : Checkpoint α n}
    (hresumed : b.resumed? = some c) :
    b.session.work.ready = true ∧ b.session.work.accepted = some c ∧
      Calibrated b.problem (b.session.rewound c) b.solve.2.session := by
  unfold Block.resumed? at hresumed
  split at hresumed
  · next hmethod =>
    have hback := hresumed
    unfold AlgebraicLoop.resumed? at hback
    split at hback
    · next hcondition =>
      have hready := hcondition.2.1
      exact ⟨hready, hback, Block.perform_after
        (solveAction_resumed hmethod hresumed (h.started hready))⟩
    · cases hback
  · cases hresumed

theorem resumed (h : b.Attributed now accepted kept) {c : Checkpoint α n}
    (hresumed : b.resumed? = some c) : b.solve.2.Attributed accepted accepted kept := by
  obtain ⟨hready, hback, hsolve⟩ := h.goes hresumed
  have hs := h.started hready
  have hscale : b.solve.2.session.work.variableScale = c.memory.variableScale := by
    obtain ⟨_, hscale⟩ | ⟨hbefore, _⟩ := hsolve.scale
    · exact hscale
    · exact absurd (hbefore.symm.trans hready) Bool.false_ne_true
  have hnominal : b.solve.2.session.nominal = b.session.nominal := hsolve.nominal hs
  have hscales : accepted.scales b.problem b.solve.2.session =
      accepted.scales b.problem b.session :=
    ScaleOrigin.scales_eq (fun hne => absurd hne hs) fun _ => hnominal
  have hproblem : b.solve.2 = { b with session := b.solve.2.session } := by
    rw [← b.perform_problem solveAction]
    rfl
  rw [hproblem]
  refine h.move (fun _ => hnominal) hsolve.started ?_ fun d hd => ?_
  · rw [hscale, hscales]
    exact h.step c hback
  · rw [hscales]
    exact h.step d (hsolve.accepted.symm.trans hd)

end Block.Attributed

theorem Origins.attributed {b : Block α σ n} {now accepted : ScaleOrigin}
    {kept : List (Checkpoint α n × ScaleOrigin)} (h : Origins b now accepted kept) :
    b.Attributed now accepted kept := by
  induction h with
  | create h =>
    obtain ⟨_, rfl⟩ := Block.create_eq_ok h
    exact .fresh rfl (List.forall_mem_nil _) fun _ => List.forall_mem_nil _
  | @onwards b now accepted kept operation _ hop hstays ih =>
    have hproblem : b.after operation = { b with session := (b.after operation).session } := by
      rw [← b.after_problem operation]
    have h := ih.onwards (Block.onwards_after hop hstays)
    rw [← hproblem] at h
    exact h
  | resumed _ hresumed ih => exact ih.resumed hresumed
  | completedOuterStep _ ih =>
    refine ⟨ih.scale, fun c hc => ?_, ih.taken, fun hs => ?_⟩
    · cases hc
      exact ih.scale
    · obtain ⟨hready, hnow, _, hkept⟩ := ih.untouched hs
      exact ⟨hready, hnow, hnow, hkept⟩
  | notifyEvent _ ih => exact ⟨ih.scale, ih.step, ih.taken, ih.untouched⟩
  | modifyModel _ _ ih => exact ⟨ih.scale, ih.step, ih.taken, ih.untouched⟩
  | teardown _ ih =>
    exact .fresh rfl ih.taken fun hs => (ih.untouched hs).2.2.2
  | checkpoint _ ih =>
    refine ⟨ih.scale, ih.step, List.forall_mem_cons.2 ⟨ih.scale, ih.taken⟩, fun hs => ?_⟩
    obtain ⟨hready, hnow, haccepted, hkept⟩ := ih.untouched hs
    exact ⟨hready, hnow, haccepted, List.forall_mem_cons.2 ⟨hnow, hkept⟩⟩
  | restore _ hc ih =>
    rw [Block.restore_eq]
    refine ⟨ih.taken _ hc, ih.step, ih.taken, fun hs => ?_⟩
    obtain ⟨hready, _, haccepted, hkept⟩ := ih.untouched hs
    exact ⟨hready, hkept _ hc, haccepted, hkept⟩

/-- Whatever was done to a block, its scales are all one or those that its nominal values give. -/
theorem Lived.variableScale {b : Block α σ n} {kept : List (Checkpoint α n)} (h : Lived b kept) :
    b.session.work.variableScale = Vector.replicate n 1 ∨
      b.session.work.variableScale = b.session.derivedScale b.problem := by
  obtain ⟨now, _, _, horigins, _⟩ := h.origins
  have hscale := horigins.attributed.scale
  cases now with
  | blank => exact .inl hscale
  | setUp => exact .inr hscale

/-- In a workspace that has been set up, scales can be those of a new workspace only if there is a
checkpoint with such scales to go back to. -/
theorem Origins.setUp_of_ready {b : Block α σ n} {now accepted : ScaleOrigin}
    {kept : List (Checkpoint α n × ScaleOrigin)} (h : Origins b now accepted kept)
    (hready : b.session.work.ready = true) :
    now = .setUp ∨ (b.session.work.accepted ≠ none ∧ accepted = .blank) ∨
      ∃ c, (c, ScaleOrigin.blank) ∈ kept := by
  -- Only a set-up marks the workspace as ready, and what brings other scales says from where.
  induction h with
  | create h =>
    obtain ⟨_, rfl⟩ := Block.create_eq_ok h
    cases hready
  | @onwards b now accepted kept operation _ hop hstays ih =>
    unfold ScaleOrigin.after
    rw [hready]
    cases hbefore : b.session.work.ready with
    | false => exact .inl (if_pos ⟨rfl, rfl⟩)
    | true =>
      rw [if_neg fun h => Bool.noConfusion h.1]
      have hkept : (b.after operation).session.work.accepted = b.session.work.accepted := by
        obtain hst | ⟨_, _, hwork⟩ := Block.onwards_after hop hstays
        · exact hst.accepted
        · rw [hwork]
      rw [hkept]
      exact ih hbefore
  | @resumed b now accepted kept c h hresumed _ =>
    obtain ⟨_, hback, hsolve⟩ := h.attributed.goes hresumed
    cases accepted with
    | setUp => exact .inl rfl
    | blank =>
      have hkept : b.solve.2.session.work.accepted = some c := hsolve.accepted.trans hback
      exact .inr (.inl ⟨by rw [hkept]; exact Option.some_ne_none c, rfl⟩)
  | @completedOuterStep b now _ _ _ _ =>
    cases now with
    | setUp => exact .inl rfl
    | blank => exact .inr (.inl ⟨Option.some_ne_none _, rfl⟩)
  | notifyEvent _ ih => exact ih hready
  | modifyModel _ _ ih => exact ih hready
  | teardown _ ih => cases hready
  | checkpoint _ ih =>
    exact (ih hready).imp id fun h => h.imp id fun ⟨c, hc⟩ => ⟨c, List.mem_cons_of_mem _ hc⟩
  | @restore _ _ _ before _ c _ hc ih =>
    cases before with
    | setUp => exact .inl rfl
    | blank => exact .inr (.inr ⟨c, hc⟩)

/-- The scales of a block are those that the nominal values give, or all one, by where it was set up
or went back to last. All one in a workspace that has been set up they are only after going back to
a checkpoint, or an accepted outer step, whose scales were all one as well. -/
theorem scales_have_origin {b : Block α σ n} {now accepted : ScaleOrigin}
    {kept : List (Checkpoint α n × ScaleOrigin)} (h : Origins b now accepted kept) :
    b.session.work.variableScale = now.scales b.problem b.session ∧
      (b.session.work.ready = true →
        now = .setUp ∨ (b.session.work.accepted ≠ none ∧ accepted = .blank) ∨
          ∃ c, (c, ScaleOrigin.blank) ∈ kept) :=
  ⟨h.attributed.scale, h.setUp_of_ready⟩

end

/-! ## A block that forgets its scales -/

/-- A block whose unknown is of the size of five. -/
def fiveBlock : Block Float Unit 1 :=
  Block.pointwise { Options.standard with variableScaling := .manual #[5] } (.singleton 1)
    fun x => .ok (x.map fun x => x - 2)

theorem fiveBlock_resumed {b : Block Float Unit 1} (h : b.problem = fiveBlock.problem) :
    b.resumed? = none := by
  unfold Block.resumed? resumed?
  rw [h]
  rfl

set_option maxRecDepth 100000 in
/-- A checkpoint from before the first solve takes the scales away that the solve derived. -/
theorem scales_have_origin_early :
    let b := (fiveBlock.solve.2.restore fiveBlock.checkpoint).2
    Origins b .blank .blank [(fiveBlock.checkpoint, .blank)] ∧ b.session.work.ready = true ∧
      b.session.work.variableScale = Vector.replicate 1 1 ∧
      b.session.work.variableScale ≠ b.session.derivedScale b.problem := by
  intro b
  have hnew : Origins fiveBlock .blank .blank [] :=
    @Origins.create Float Unit _ 1 "loop" fiveBlock.problem.model () fiveBlock.problem.options 0
      .continuous fiveBlock rfl
  have hsolved : Origins (fiveBlock.after .solve) _ .blank [(fiveBlock.checkpoint, .blank)] :=
    hnew.checkpoint.onwards nofun fun _ => fiveBlock_resumed rfl
  have hb : Origins b .blank .blank [(fiveBlock.checkpoint, .blank)] :=
    hsolved.restore (List.mem_singleton_self _)
  exact ⟨hb, by decide +kernel, (scales_have_origin hb).1, by decide +kernel⟩

end AlgebraicLoop
