import AlgebraicLoop.Proofs.StartingOver

/-!
# Calls that are rejected

A block takes its start values when it first needs them, and four operations may be the first to do
so. Values that are refused are refused as a whole: the call ends there, and nothing of the block
has changed by it. Nor has it where a point or a checkpoint of the wrong size is given.

* `Session.blockData`, `SameData`: what a block holds, and two blocks that hold the same;
* `Block.StartFails`, `Block.Starts`: blocks whose start values are refused, and taken;
* `Block.Rejects`, `Block.Rejects.sameData`: the calls that are rejected, and the blocks they leave;
* `Spared`, `Spared.sameData`: two histories that differ in rejected calls;
* `Opens`: calls that go on from the start values they take;
* `rejected_calls_vanish`: rejected calls change nothing, neither at once nor later.
-/

namespace AlgebraicLoop
set_option autoImplicit false

section
variable {α σ : Type} [Scalar α] {n : Nat} {P : Problem α σ n} {s t : Session α σ n}
  {g : Givens α n} {b b' c : Block α σ n} {fault : Fault α}

/-! ## What a block holds -/

/-- What a block holds beside the count of its solves, the state of its model and the records of
notices and requests. -/
def Session.blockData (s : Session α σ n) : Session α Unit n :=
  { s with counters.solves := 0, model := (), notices := #[], calls := #[] }

/-- The blocks hold the same. -/
structure SameData (b c : Block α σ n) : Prop where
  problem : c.problem = b.problem
  data : c.session.blockData = b.session.blockData

omit [Scalar α] in
theorem SameData.refl (b : Block α σ n) : SameData b b := ⟨rfl, rfl⟩

omit [Scalar α] in
theorem SameData.symm (h : SameData b c) : SameData c b := ⟨h.problem.symm, h.data.symm⟩

omit [Scalar α] in
theorem SameData.trans {d : Block α σ n} (h : SameData b c) (h' : SameData c d) : SameData b d :=
  ⟨h'.problem.trans h.problem, h'.data.trans h.data⟩

omit [Scalar α] in
theorem SameData.restore {m : Nat} (h : SameData b c) (checkpoint : Checkpoint α m) :
    SameData (b.restore checkpoint).2 (c.restore checkpoint).2 := by
  by_cases hm : m = n
  · subst hm
    rw [b.restore_eq, c.restore_eq]
    exact ⟨h.problem, congrArg (fun d : Session α Unit m => d.rewound checkpoint) h.data⟩
  · rw [b.restore_misfit checkpoint hm, c.restore_misfit checkpoint hm]
    exact h

omit [Scalar α] in
theorem SameData.completedOuterStep (h : SameData b c) :
    SameData b.completedOuterStep c.completedOuterStep :=
  ⟨h.problem, congrArg (fun d : Session α Unit n =>
    { d with work := { d.work with accepted := some (d.work.save d.x) } }) h.data⟩

theorem SameData.teardown (h : SameData b c) : SameData b.teardown c.teardown :=
  ⟨h.problem, congrArg (fun d : Session α Unit n => { d with work := Workspace.fresh n }) h.data⟩

omit [Scalar α] in
theorem SameData.notifyEvent (h : SameData b c) : SameData b.notifyEvent c.notifyEvent :=
  ⟨h.problem, congrArg (fun d : Session α Unit n =>
    { d with atEvent := true, eventSinceJacobian := true }) h.data⟩

omit [Scalar α] in
theorem SameData.modifyModel (h : SameData b c) (change change' : σ → σ) :
    SameData (b.modifyModel change) (c.modifyModel change') := ⟨h.problem, h.data⟩

/-! ## Rejected calls -/

/-- The block has not started, and what its model answers now is not taken. -/
def Block.StartFails (b : Block α σ n) (fault : Fault α) : Prop :=
  b.session.phase = .untouched ∧
    StartRefused n (b.problem.model.start (StartValues.default n) b.session.model).1 fault

/-- Start values fail to be taken only where they are refused. -/
theorem Block.startFails_iff (b : Block α σ n) :
    (∃ halt t, prepareUnknowns b.problem b.session = .error halt t) ↔
      ∃ fault, b.StartFails fault := by
  constructor
  · rintro ⟨halt, t, hrun⟩
    by_cases hs : b.session.phase = .untouched
    · obtain ⟨g, hanswer, hg⟩ | ⟨fault, hrefused⟩ := start_taken_or_refused (n := n)
        (b.problem.model.start (StartValues.default n) b.session.model).1
      · obtain ⟨notices, htaken⟩ := prepareUnknowns_givens hs hanswer hg
        rw [htaken] at hrun
        cases hrun
      · exact ⟨fault, hs, hrefused⟩
    · rw [prepareUnknowns_again hs] at hrun
      cases hrun
  · rintro ⟨fault, hs, hrefused⟩
    obtain ⟨notices, hrun⟩ := prepareUnknowns_refused hs hrefused
    exact ⟨_, _, hrun⟩

/-- A call that comes to a fault and leaves a block that holds the same. -/
def Block.Fails {β : Type} (b : Block α σ n) (fault : Fault α)
    (call : Except (Halt α) β × Block α σ n) : Prop :=
  call.1 = .error (.fault fault) ∧ SameData b call.2

omit [Scalar α] in
theorem Block.fails_of_error {β : Type} {action : Problem α σ n → Action α σ n β}
    (h : action b.problem b.session = .error (.fault fault) t)
    (hdata : t.blockData = b.session.blockData) : b.Fails fault (b.perform action) := by
  rw [Block.perform_error h]
  exact ⟨rfl, rfl, hdata⟩

namespace Block.StartFails

theorem solve (h : b.StartFails fault) : b.Fails fault b.solve := by
  obtain ⟨notices, hrun⟩ := prepareUnknowns_refused (P := b.problem)
    (s := { b.session with counters.solves := b.session.counters.solves + 1 }) h.1 h.2
  have hsolve : solveAction b.problem b.session = .error (.fault fault)
      (Session.unstarted b.problem notices
        { b.session with counters.solves := b.session.counters.solves + 1 }) := by
    rw [solveAction_eq]
    refine bind_error ?_
    unfold prelude
    rw [modify_bind_apply]
    exact bind_error hrun
  exact fails_of_error hsolve rfl

theorem setPoint (h : b.StartFails fault) {x : Array α} (hx : x.size = n) :
    b.Fails fault (b.setPoint x) := by
  obtain ⟨notices, hrun⟩ := prepareUnknowns_refused h.1 h.2
  have hset : setPointAction b.problem x b.session =
      .error (.fault fault) (b.session.unstarted b.problem notices) := by
    rw [setPointAction_eq, checkLength_fit hx, pure_bind]
    exact bind_error hrun
  exact fails_of_error hset rfl

theorem freshJacobian (h : b.StartFails fault) :
    ∃ t, AlgebraicLoop.freshJacobian b.problem b.session = .error (.fault fault) t ∧
      t.blockData = b.session.blockData := by
  obtain ⟨notices, hrun⟩ := prepareUnknowns_refused h.1 h.2
  refine ⟨b.session.unstarted b.problem notices, ?_, rfl⟩
  rw [freshJacobian_eq]
  exact bind_error hrun

theorem evaluateJacobian (h : b.StartFails fault) : b.Fails fault b.evaluateJacobian := by
  obtain ⟨t, hrun, hdata⟩ := h.freshJacobian
  exact fails_of_error (bind_error hrun) hdata

theorem factorizeJacobian (h : b.StartFails fault) : b.Fails fault b.factorizeJacobian := by
  obtain ⟨t, hrun, hdata⟩ := h.freshJacobian
  exact fails_of_error (bind_error hrun) hdata

end Block.StartFails

theorem Block.setPoint_misfit (b : Block α σ n) {x : Array α} (hx : x.size ≠ n) :
    b.setPoint x = (.error (.fault (.dimensionMismatch n x.size)), b) := by
  have hrun : setPointAction b.problem x b.session =
      .error (.fault (.dimensionMismatch n x.size)) b.session := by
    rw [setPointAction_eq, checkLength_misfit hx, fail_bind_apply]
  unfold Block.setPoint
  exact Block.perform_error hrun

/-- The calls that are rejected, with the fault each comes to and the block it leaves. -/
inductive Block.Rejects (b : Block α σ n) : Fault α → Block α σ n → Prop
  | solve {fault : Fault α} : b.StartFails fault → Rejects b fault b.solve.2
  | setPoint {fault : Fault α} {x : Array α} : b.StartFails fault → x.size = n →
      Rejects b fault (b.setPoint x).2
  | evaluateJacobian {fault : Fault α} : b.StartFails fault →
      Rejects b fault b.evaluateJacobian.2
  | factorizeJacobian {fault : Fault α} : b.StartFails fault →
      Rejects b fault b.factorizeJacobian.2
  | misfit {x : Array α} : x.size ≠ n →
      Rejects b (.dimensionMismatch n x.size) (b.setPoint x).2
  | foreign {m : Nat} (checkpoint : Checkpoint α m) : m ≠ n →
      Rejects b (.dimensionMismatch n m) (b.restore checkpoint).2

theorem Block.Rejects.sameData (h : b.Rejects fault c) : SameData b c := by
  cases h with
  | solve h => exact h.solve.2
  | setPoint h hx => exact (h.setPoint hx).2
  | evaluateJacobian h => exact h.evaluateJacobian.2
  | factorizeJacobian h => exact h.factorizeJacobian.2
  | misfit hx =>
    rw [b.setPoint_misfit hx]
    exact .refl b
  | foreign checkpoint hm =>
    rw [b.restore_misfit checkpoint hm]
    exact .refl b

/-- The first block has the same history as the second one, with rejected calls in between. -/
inductive Spared : Block α σ n → Block α σ n → Prop
  | same (b : Block α σ n) : Spared b b
  | rejected {b b' c : Block α σ n} {fault : Fault α} : Spared b b' → b.Rejects fault c →
      Spared c b'
  | restore {b b' : Block α σ n} {m : Nat} (checkpoint : Checkpoint α m) : Spared b b' →
      Spared (b.restore checkpoint).2 (b'.restore checkpoint).2
  | completedOuterStep {b b' : Block α σ n} : Spared b b' →
      Spared b.completedOuterStep b'.completedOuterStep
  | teardown {b b' : Block α σ n} : Spared b b' → Spared b.teardown b'.teardown
  | notifyEvent {b b' : Block α σ n} : Spared b b' → Spared b.notifyEvent b'.notifyEvent
  | modifyModel {b b' : Block α σ n} (change change' : σ → σ) : Spared b b' →
      Spared (b.modifyModel change) (b'.modifyModel change')

theorem Spared.sameData (h : Spared b b') : SameData b b' := by
  induction h with
  | same b => exact .refl b
  | rejected _ hrejects ih => exact hrejects.sameData.symm.trans ih
  | restore checkpoint _ ih => exact ih.restore checkpoint
  | completedOuterStep _ ih => exact ih.completedOuterStep
  | teardown _ ih => exact ih.teardown
  | notifyEvent _ ih => exact ih.notifyEvent
  | modifyModel change change' _ ih => exact ih.modifyModel change change'

/-! ## The first start that succeeds -/

/-- The block has not started, and what its model answers now is taken. -/
structure Block.Starts (b : Block α σ n) (g : Givens α n) : Prop where
  untouched : b.session.phase = .untouched
  answer : (b.problem.model.start (StartValues.default n) b.session.model).1 = .ok g.values
  ordered : g.Ordered

/-- The call on the block is the same call on one that has just started from the given values. -/
def Block.Opens {β : Type} (b : Block α σ n) (g : Givens α n) (call : Block α σ n → β) : Prop :=
  ∃ t : Session α σ n, t.blockData = (b.session.startWith b.problem g).blockData ∧
    call b = call { b with session := t }

omit [Scalar α] in
theorem Block.perform_congr {β : Type} {action : Problem α σ n → Action α σ n β}
    (h : action b.problem b.session = action b.problem t) :
    b.perform action = ({ b with session := t } : Block α σ n).perform action := by
  unfold Block.perform
  rw [h]

namespace Block.Starts

theorem solve (h : b.Starts g) : b.Opens g Block.solve := by
  obtain ⟨notices, hrun⟩ := prepareUnknowns_givens (P := b.problem)
    (s := { b.session with counters.solves := b.session.counters.solves + 1 }) h.untouched h.answer
    h.ordered
  refine ⟨b.session.opened b.problem g notices, rfl, perform_congr ?_⟩
  -- The solve is counted before the start values are asked for.
  have hagain : prepareUnknowns b.problem (Session.opened b.problem g notices
      { b.session with counters.solves := b.session.counters.solves + 1 }) = _ :=
    prepareUnknowns_again Phase.noConfusion
  have hprelude : prelude b.problem b.session =
      prelude b.problem (b.session.opened b.problem g notices) := by
    unfold prelude
    rw [modify_bind_apply, modify_bind_apply, bind_ok hrun]
    exact (bind_ok (f := fun _ => approach b.problem) hagain).symm
  rw [solveAction_eq, bind_apply, bind_apply, hprelude]

theorem setPoint (h : b.Starts g) {x : Array α} (hx : x.size = n) :
    b.Opens g fun b => b.setPoint x := by
  obtain ⟨notices, hrun⟩ := prepareUnknowns_givens h.untouched h.answer h.ordered
  have hagain : prepareUnknowns b.problem (b.session.opened b.problem g notices) = _ :=
    prepareUnknowns_again Phase.noConfusion
  refine ⟨b.session.opened b.problem g notices, rfl, perform_congr ?_⟩
  rw [setPointAction_eq, checkLength_fit hx, pure_bind, bind_ok hrun, bind_ok hagain]

theorem freshJacobian (h : b.Starts g) :
    ∃ notices, AlgebraicLoop.freshJacobian b.problem b.session =
      AlgebraicLoop.freshJacobian b.problem (b.session.opened b.problem g notices) := by
  obtain ⟨notices, hrun⟩ := prepareUnknowns_givens h.untouched h.answer h.ordered
  have hagain : prepareUnknowns b.problem (b.session.opened b.problem g notices) = _ :=
    prepareUnknowns_again Phase.noConfusion
  refine ⟨notices, ?_⟩
  rw [freshJacobian_eq, bind_ok hrun, bind_ok hagain]

theorem evaluateJacobian (h : b.Starts g) : b.Opens g Block.evaluateJacobian := by
  obtain ⟨notices, hrun⟩ := h.freshJacobian
  refine ⟨b.session.opened b.problem g notices, rfl, perform_congr ?_⟩
  unfold jacobianAction
  rw [bind_apply, bind_apply, hrun]

theorem factorizeJacobian (h : b.Starts g) : b.Opens g Block.factorizeJacobian := by
  obtain ⟨notices, hrun⟩ := h.freshJacobian
  refine ⟨b.session.opened b.problem g notices, rfl, perform_congr ?_⟩
  unfold factorizeAction
  rw [bind_apply, bind_apply, hrun]

end Block.Starts

/-- The calls on the two blocks are calls on blocks that hold the same: what the first one had, and
the start values it now takes. -/
def OpensAlike {β : Type} (g : Givens α n) (call : Block α σ n → β) (b b' : Block α σ n) : Prop :=
  ∃ c c' : Block α σ n, SameData c c' ∧
    c.session.blockData = (b.session.startWith b.problem g).blockData ∧
    call b = call c ∧ call b' = call c'

theorem SameData.opensAlike {β : Type} {call : Block α σ n → β} (h : SameData b b')
    (hb : b.Opens g call) (hb' : b'.Opens g call) : OpensAlike g call b b' := by
  obtain ⟨t, ht, hcall⟩ := hb
  obtain ⟨t', ht', hcall'⟩ := hb'
  have hstart : (b'.session.startWith b'.problem g).blockData =
      (b.session.startWith b.problem g).blockData := by
    rw [h.problem]
    exact congrArg (fun d : Session α Unit n =>
      { d with
        x := b.problem.confined g.lower g.upper g.initial
        nominal := g.repaired
        lower := g.lower
        upper := g.upper
        initial := g.initial
        phase := .started }) h.data
  exact ⟨{ b with session := t }, { b' with session := t' },
    ⟨h.problem, ht'.trans (hstart.trans ht.symm)⟩, ht, hcall, hcall'⟩

/-- Calls that are rejected change nothing. A block that cannot take its start values is left by
every operation that needs them as it was, and the operation comes to the fault that names what is
wrong with them; a point or a checkpoint of the wrong size is refused without any effect. Blocks
whose histories differ in rejected calls hold the same, and when both take the same start values at
last, whatever operation brings it about goes on from blocks that hold the same again. -/
theorem rejected_calls_vanish (h : Spared b b') :
    SameData b b' ∧
    ((∃ halt t, prepareUnknowns b.problem b.session = .error halt t) ↔
      ∃ fault, b.StartFails fault) ∧
    (∀ fault, b.StartFails fault →
      b.Fails fault b.solve ∧ (∀ x : Array α, x.size = n → b.Fails fault (b.setPoint x)) ∧
      b.Fails fault b.evaluateJacobian ∧ b.Fails fault b.factorizeJacobian) ∧
    (∀ x : Array α, x.size ≠ n →
      b.setPoint x = (.error (.fault (.dimensionMismatch n x.size)), b)) ∧
    (∀ (m : Nat) (checkpoint : Checkpoint α m), m ≠ n →
      b.restore checkpoint = (.error (.fault (.dimensionMismatch n m)), b)) ∧
    ∀ g : Givens α n, b.Starts g → b'.Starts g →
      OpensAlike g Block.solve b b' ∧
      (∀ x : Array α, x.size = n → OpensAlike g (fun b => b.setPoint x) b b') ∧
      OpensAlike g Block.evaluateJacobian b b' ∧ OpensAlike g Block.factorizeJacobian b b' := by
  have hsame : SameData b b' := h.sameData
  refine ⟨hsame, b.startFails_iff, fun fault hfails => ?_, fun x hx => b.setPoint_misfit hx,
    fun m checkpoint hm => b.restore_misfit checkpoint hm, fun g hg hg' => ?_⟩
  · exact ⟨hfails.solve, fun x hx => hfails.setPoint hx, hfails.evaluateJacobian,
      hfails.factorizeJacobian⟩
  · exact ⟨hsame.opensAlike hg.solve hg'.solve,
      fun x hx => hsame.opensAlike (hg.setPoint hx) (hg'.setPoint hx),
      hsame.opensAlike hg.evaluateJacobian hg'.evaluateJacobian,
      hsame.opensAlike hg.factorizeJacobian hg'.factorizeJacobian⟩

end

/-! ## A model that mends its bounds -/

/-- Start values for one unknown with the given bounds. -/
def mendedGivens (lower upper : Float) : Givens Float 1 :=
  ⟨.singleton 1, .singleton lower, .singleton upper, .singleton 5⟩

/-- A block whose model gives its bounds in the wrong order when it is asked for the first time. -/
def mendingBlock : Block Float Nat 1 where
  problem :=
    { label := "loop"
      options := Options.standard
      model :=
        { start := fun _ asked =>
            (.ok (if asked = 0 then mendedGivens 2 1 else mendedGivens 1 2).values, asked + 1)
          evaluate := fun x asked => (.ok (x.map fun x => x - 2), asked)
          evaluateAuxiliary := fun _ asked => (.ok (), asked)
          writeBack := fun _ asked => (.ok (), asked)
          residualNominals := fun _ => none
          jacobian := none
          directional := none
          pattern := fun _ => none }
      auxiliaryCount := 0
      variability := .continuous }
  session := Session.fresh 1 0

theorem mendingBlock_startFails : mendingBlock.StartFails (.inconsistentBounds 0 2 1) :=
  ⟨rfl, .disordered (g := mendedGivens 2 1) (i := 0) (by decide +kernel)⟩

/-- A solve is rejected because of the bounds, and a point because of its size. After an event and
with the bounds mended, the next solve goes on as it does without these calls. -/
theorem rejected_calls_vanish_mending :
    let rejected := ((mendingBlock.solve.2.setPoint #[]).2.notifyEvent).modifyModel id
    let spared := mendingBlock.notifyEvent.modifyModel fun _ => 1
    mendingBlock.solve.1 = .error (.fault (.inconsistentBounds 0 2 1)) ∧
      Spared rejected spared ∧ SameData rejected spared ∧
      OpensAlike (mendedGivens 1 2) Block.solve rejected spared := by
  intro rejected spared
  have hspared : Spared rejected spared := by
    refine .modifyModel id _ (.notifyEvent ?_)
    exact .rejected (.rejected (.same mendingBlock) (.solve mendingBlock_startFails))
      (.misfit (by decide))
  have hordered : (mendedGivens 1 2).Ordered := by
    unfold Givens.Ordered
    decide +kernel
  have hstarts : rejected.Starts (mendedGivens 1 2) := ⟨by decide +kernel, rfl, hordered⟩
  have hstarts' : spared.Starts (mendedGivens 1 2) := ⟨rfl, rfl, hordered⟩
  have hfails := (rejected_calls_vanish (.same mendingBlock)).2.2.1 _ mendingBlock_startFails
  have hboth := rejected_calls_vanish hspared
  exact ⟨hfails.1.1, hspared, hboth.1, (hboth.2.2.2.2.2 _ hstarts hstarts').1⟩

end AlgebraicLoop
