import AlgebraicLoop.Proofs.FatalCalls
import AlgebraicLoop.Proofs.Passages

/-!
# Factorizations in use

A factorization is kept with the number of the Jacobian it was made from. Going back to a checkpoint
sets that number back, and an evaluation that fails leaves a matrix that was only partly overwritten;
still no step is computed from a factorization of any other matrix than the Jacobian of the block.

The invariant is `Memory.Sound`. It is kept by every step of a solve, and it travels with checkpoints.
Only a fatal answer can break it.
-/

namespace AlgebraicLoop
set_option autoImplicit false

section
variable {α σ : Type} [Scalar α] {n : Nat} {P : Problem α σ n} {o s t : Session α σ n}

/-! ## The invariant -/

/-- No factorization is newer than the Jacobian, and one that is as new as a Jacobian that can be used
was made from it. -/
structure Memory.Sound (m : Memory α n) : Prop where
  dated : ∀ g, m.factoredGeneration = some g → g ≤ m.generation
  fits : m.flags.jacobianCurrent = true → m.factoredGeneration = some m.generation →
    m.factorization.isPresent = true → m.factorization.Of m.jacobian

namespace Memory.Sound

/-- A Jacobian that has just changed is newer than every factorization. -/
theorem changed {m m' : Memory α n} (h : m.Sound)
    (hfactored : m'.factoredGeneration = m.factoredGeneration)
    (hgeneration : m'.generation = m.generation + 1) : m'.Sound := by
  have hnewer : ∀ g, m'.factoredGeneration = some g → g < m'.generation := by
    intro g hg
    rw [hfactored] at hg
    have hle := h.dated g hg
    omega
  exact ⟨fun g hg => Nat.le_of_lt (hnewer g hg), fun _ hg => absurd (hnewer _ hg) (Nat.lt_irrefl _)⟩

theorem of_stock (h : s.work.toMemory.Sound) (hst : t.stock = s.stock) : t.work.toMemory.Sound := by
  have hfactored : t.work.factoredGeneration = s.work.factoredGeneration :=
    congrArg (fun p => p.1.factoredGeneration) hst
  have hgeneration : t.work.generation = s.work.generation := congrArg (fun p => p.1.generation) hst
  have hcurrent : t.work.flags.jacobianCurrent = s.work.flags.jacobianCurrent :=
    congrArg (fun p => p.1.current) hst
  have hfactors : t.work.factorization = s.work.factorization :=
    congrArg (fun p => p.1.factorization) hst
  have hjacobian : t.work.jacobian = s.work.jacobian := congrArg Prod.snd hst
  refine ⟨?_, ?_⟩
  · rw [hfactored, hgeneration]
    exact h.dated
  · rw [hfactored, hgeneration, hcurrent, hfactors, hjacobian]
    exact h.fits

theorem aside (h : s.work.toMemory.Sound) (hst : Aside s t) : t.work.toMemory.Sound := by
  refine ⟨?_, ?_⟩
  · rw [hst.factoredGeneration, hst.generation]
    exact h.dated
  · rw [hst.factoredGeneration, hst.generation, hst.current, hst.factorization, hst.jacobian]
    exact h.fits

theorem refactored {usable : Bool} (h : Refactored s.dated t usable) : t.work.toMemory.Sound := by
  have hgeneration : t.work.generation = s.work.generation := congrArg Marks.generation h.marks
  have hfactored : t.work.factoredGeneration = some s.work.generation :=
    congrArg Marks.factoredGeneration h.marks
  refine ⟨fun g hg => ?_, fun _ _ hpresent => ?_⟩
  · rw [hfactored] at hg
    cases hg
    exact Nat.le_of_eq hgeneration.symm
  · cases usable with
    | true => exact h.present rfl
    | false =>
      have habsent : t.work.factorization = .none := h.absent rfl
      rw [habsent] at hpresent
      cases hpresent

theorem step (h : s.work.toMemory.Sound) (hst : Step P o s t) : t.work.toMemory.Sound := by
  cases hst with
  | aside hst => exact h.aside hst
  | evaluated _ hrun =>
    have hmarks := ((evaluateJacobian_after P _ _ s).ok hrun).1
    exact h.changed (congrArg Marks.factoredGeneration hmarks) (congrArg Marks.generation hmarks)
  | rejected hrun =>
    have hmarks := (evaluateJacobian_after P _ _ s).ok hrun
    refine ⟨?_, fun hcurrent => ?_⟩
    · have hfactored : t.work.factoredGeneration = s.work.factoredGeneration :=
        congrArg Marks.factoredGeneration hmarks
      have hgeneration : t.work.generation = s.work.generation := congrArg Marks.generation hmarks
      rw [hfactored, hgeneration]
      exact h.dated
    · have hrejected : t.work.flags.jacobianCurrent = false := congrArg Marks.current hmarks
      rw [hrejected] at hcurrent
      cases hcurrent
  | updated _ _ _ => exact h.changed rfl rfl
  | factored hrun => exact refactored ((factorize_after s).ok hrun)
  | factoredDirectly _ hrun => exact refactored ((factorDirect_after s).ok hrun)
  | unfactored _ _ _ => exact ⟨nofun, fun _ hg => nomatch hg⟩

theorem steps (h : s.work.toMemory.Sound) (hst : Steps P o s t) : t.work.toMemory.Sound := by
  induction hst with
  | refl => exact h
  | tail _ hstep ih => exact ih.step hstep

end Memory.Sound

/-! ## Histories without a fatal answer -/

/-- No request has been answered fatally yet. -/
def Session.Peaceful (s : Session α σ n) : Prop := ∀ c ∈ s.calls.toList, c.fatal? = none

omit [Scalar α] in
theorem Session.Peaceful.earlier (h : t.Peaceful)
    (hst : t.calls.toList = s.calls.toList ++ callsSince s t) : s.Peaceful := by
  intro c hc
  refine h c ?_
  rw [hst]
  exact List.mem_append_left _ hc

/-- An evaluation of the Jacobian is cut short by a fatal answer only. -/
theorem Torn.not_peaceful (h : Torn P o s t) : ¬ t.Peaceful := by
  obtain ⟨_, f, halt, _, hrun⟩ := h
  have haborted : Aborted s t halt :=
    ((setting_orderly P).stage.spot.footing.evaluateJacobian s.x f s).error hrun
  obtain ⟨before, c, request, reason, hsince, _, hc, _⟩ := haborted.last
  intro hpeace
  have hmem : c ∈ t.calls.toList := by
    rw [haborted.calls, hsince]
    simp
  rw [hpeace c hmem] at hc
  cases hc

/-- What a block remembers is sound, and so is what its accepted outer step does. -/
structure Session.Fitting (s : Session α σ n) : Prop where
  memory : s.work.toMemory.Sound
  accepted : ∀ c, s.work.accepted = some c → c.memory.Sound

namespace Session.Fitting

theorem of_fresh (h : s.work = Workspace.fresh n) : s.Fitting := by
  have hnone : s.work.factoredGeneration = none := congrArg (fun w => w.factoredGeneration) h
  have haccepted : s.work.accepted = none := congrArg (fun w => w.accepted) h
  refine ⟨⟨fun g hg => ?_, fun _ hg => ?_⟩, fun c hc => ?_⟩
  · rw [hnone] at hg
    cases hg
  · rw [hnone] at hg
    cases hg
  · rw [haccepted] at hc
    cases hc

theorem shift (h : s.Fitting) (hst : Shift s t) : t.Fitting where
  memory := h.memory.of_stock hst.stock
  accepted c hc := h.accepted c (hst.course.keeps.symm.trans hc)

theorem aside (h : s.Fitting) (hst : Aside s t) : t.Fitting where
  memory := h.memory.aside hst
  accepted c hc := h.accepted c (hst.accepted.symm.trans hc)

theorem steps (h : s.Fitting) (hst : Steps P o s t) : t.Fitting where
  memory := h.memory.steps hst
  accepted c hc := h.accepted c (hst.course.keeps.symm.trans hc)

theorem halted (h : s.Fitting) (hst : Halted P o s t) (hpeace : t.Peaceful) : t.Fitting := by
  obtain ⟨v, hsv, rfl | htorn⟩ := hst
  · exact h.steps hsv
  · exact absurd hpeace htorn.not_peaceful

theorem entered (h : s.Fitting) (hst : Entered P s t) : t.Fitting := by
  cases hst with
  | atOnce _ => exact h
  | opened _ hopen =>
    cases hopen with
    | inPlace hshift =>
      have ht := h.shift hshift
      exact ⟨ht.memory, ht.accepted⟩
    | wentBack _ _ _ _ hc => exact ⟨h.accepted _ hc, h.accepted⟩

theorem passage (h : s.Fitting) (hst : Passage P s t) (hpeace : t.Peaceful) : t.Fitting := by
  cases hst with
  | stopped hst => exact h.shift hst.shift
  | unstarted hsr _ hrv hvt => exact ((h.shift hsr.shift).shift hrv).aside hvt
  | solved hsr hrv hvw hwt =>
    have hw := hpeace.earlier hwt.trail.calls
    exact (((h.shift hsr.shift).entered hrv).halted hvw hw).aside hwt

theorem inspection (h : s.Fitting) (hst : Inspection P s t) (hpeace : t.Peaceful) : t.Fitting := by
  cases hst with
  | stopped hst => exact h.shift hst.shift
  | evaluated hsr hrt => exact (h.shift hsr.shift).halted hrt hpeace

end Session.Fitting

/-- The blocks that a history of operations leads to, with the checkpoints taken on the way. -/
inductive Lived : Block α σ n → List (Checkpoint α n) → Prop where
  | create {label : String} {model : Model α σ n} {state : σ} {options : Options α}
      {auxiliaryCount : Nat} {variability : Variability} {b : Block α σ n} :
      Block.create label model state options auxiliaryCount variability = .ok b → Lived b []
  | after {b : Block α σ n} {kept : List (Checkpoint α n)} (operation : Operation α) :
      Lived b kept → Lived (b.after operation) kept
  | notifyEvent {b : Block α σ n} {kept : List (Checkpoint α n)} :
      Lived b kept → Lived b.notifyEvent kept
  | modifyModel {b : Block α σ n} {kept : List (Checkpoint α n)} (change : σ → σ) :
      Lived b kept → Lived (b.modifyModel change) kept
  | teardown {b : Block α σ n} {kept : List (Checkpoint α n)} : Lived b kept → Lived b.teardown kept
  | checkpoint {b : Block α σ n} {kept : List (Checkpoint α n)} :
      Lived b kept → Lived b (b.checkpoint :: kept)
  | restore {b : Block α σ n} {kept : List (Checkpoint α n)} {c : Checkpoint α n} :
      Lived b kept → c ∈ kept → Lived (b.restore c).2 kept

theorem Session.Fitting.after {b : Block α σ n} (h : b.session.Fitting) (operation : Operation α)
    (hpeace : (b.after operation).session.Peaceful) : (b.after operation).session.Fitting := by
  cases operation with
  | solve => exact h.passage b.passage hpeace
  | setPoint x => exact h.shift (b.setPoint_shift x)
  | evaluateJacobian => exact h.inspection b.inspection.1 hpeace
  | factorizeJacobian => exact h.inspection b.inspection.2 hpeace
  | completedOuterStep =>
    refine ⟨h.memory, fun c hc => ?_⟩
    cases hc
    exact h.memory

/-- As long as no answer is fatal, a block and its checkpoints remember only what is sound. -/
theorem Lived.fitting {b : Block α σ n} {kept : List (Checkpoint α n)} (h : Lived b kept)
    (hpeace : b.session.Peaceful) : b.session.Fitting ∧ ∀ c ∈ kept, c.memory.Sound := by
  induction h with
  | create h =>
    obtain ⟨_, rfl⟩ := Block.create_eq_ok h
    exact ⟨.of_fresh rfl, List.forall_mem_nil _⟩
  | @after b kept operation _ ih =>
    obtain ⟨hb, hkept⟩ := ih (hpeace.earlier (b.trail_after operation).calls)
    exact ⟨hb.after operation hpeace, hkept⟩
  | notifyEvent _ ih =>
    obtain ⟨hb, hkept⟩ := ih hpeace
    exact ⟨⟨hb.memory, hb.accepted⟩, hkept⟩
  | modifyModel _ _ ih =>
    obtain ⟨hb, hkept⟩ := ih hpeace
    exact ⟨⟨hb.memory, hb.accepted⟩, hkept⟩
  | teardown _ ih =>
    exact ⟨.of_fresh rfl, (ih hpeace).2⟩
  | checkpoint _ ih =>
    obtain ⟨hb, hkept⟩ := ih hpeace
    exact ⟨hb, List.forall_mem_cons.2 ⟨hb.memory, hkept⟩⟩
  | @restore b kept c _ hc ih =>
    rw [Block.restore_eq] at hpeace ⊢
    obtain ⟨hb, hkept⟩ := ih hpeace
    exact ⟨⟨hkept c hc, hb.accepted⟩, hkept⟩

/-! ## Steps -/

/-- A solve that begins in `s` comes to compute a step with the factorization of the second session:
its Jacobian was prepared, the residual scales may have been tightened, and a usable factorization
was found or made. -/
inductive Use (P : Problem α σ n) (s : Session α σ n) : Session α σ n → Prop
  | newton {k : Nat} {f : Vector α n} {u v w y : Session α σ n} {fresh tighten : Bool}
      {norm norm' : α} :
      P.options.method ≠ .direct → Turn P s k f u →
      prepareJacobian P k u.x f u = .ok (.ok fresh) v →
      tightenedNorm P tighten k fresh u.x f norm v = .ok norm' w →
      secureFactors factorize w = .ok true y → Use P s y
  | direct {k : Nat} {f : Vector α n} {u v y : Session α σ n} {fresh : Bool} :
      P.options.method = .direct → Turn P s k f u →
      prepareJacobian P k u.x f u = .ok (.ok fresh) v →
      secureFactors factorDirect v = .ok true y → Use P s y

theorem secureFactors_of {factor : Action α σ n Bool} {y : Session α σ n}
    (hfactor : ∀ s, After factor s (fun usable t => Refactored s.dated t usable) fun _ _ => False)
    (hs : s.work.toMemory.Sound) (hcurrent : s.work.flags.jacobianCurrent = true)
    (h : secureFactors factor s = .ok true y) : y.work.factorization.Of y.work.jacobian := by
  obtain ⟨hfactored, _, rfl⟩ | ⟨_, h⟩ := secureFactors_cases h
  · obtain ⟨hgeneration, hpresent⟩ := isFactored_iff.1 hfactored
    exact hs.fits hcurrent hgeneration hpresent
  · exact ((hfactor s).ok h).present rfl

/-- The way to a use: a position with a Jacobian that can be used, and the factorization secured
there. -/
theorem Use.reached {y : Session α σ n} (h : Use P s y) :
    ∃ (v w : Session α σ n) (factor : Action α σ n Bool), Entered P s v ∧ Steps P v v w ∧
      w.work.flags.jacobianCurrent = true ∧ Tracked P v factor ∧
      (∀ s, After factor s (fun usable t => Refactored s.dated t usable) fun _ _ => False) ∧
      secureFactors factor w = .ok true y := by
  cases h with
  | @newton k f u v w _ fresh tighten norm norm' _ hturn hprepare htighten hsecure =>
    obtain ⟨e, he, heu, hf⟩ := hturn.reached
    have hvw : Aside v w := (aside_tightenedNorm P tighten k fresh u.x f norm).ok htighten
    have hev : Steps P e e v := heu.trans ((treads_prepareJacobian hf).ok hprepare)
    refine ⟨e, w, factorize, he, hev.trans (Steps.of_aside hvw), ?_, tracked_factorize P e,
      factorize_after, hsecure⟩
    rw [hvw.current]
    exact prepareJacobian_current hprepare
  | @direct k f u v _ fresh hmethod hturn hprepare hsecure =>
    obtain ⟨e, he, heu, hf⟩ := hturn.reached
    exact ⟨e, v, factorDirect, he, heu.trans ((treads_prepareJacobian hf).ok hprepare),
      prepareJacobian_current hprepare, tracked_factorDirect hmethod e, factorDirect_after, hsecure⟩

/-- Every step is computed from a factorization of the Jacobian that the block has then. -/
theorem use_factorization_of {b : Block α σ n} {kept : List (Checkpoint α n)} {s t : Session α σ n}
    (hb : Lived b kept) (hs : prelude b.problem b.session = .ok () s) (huse : Use b.problem s t)
    (hcalls : ∀ c ∈ t.calls.toList, c.fatal? = none) :
    t.work.factorization.Of t.work.jacobian := by
  obtain ⟨v, w, factor, hsv, hvw, hcurrent, htracked, hfactor, hsecure⟩ := huse.reached
  have hbs : Approached b.problem b.session s := (approached_prelude b.problem).ok hs
  have hbw : Trail b.session w := (hbs.course.trail.trans hsv.trail).trans (Steps.trail hvw)
  have hwt : Steps b.problem v w t := (htracked.secureFactors w (Steps.trail hvw)).ok hsecure
  have hpeace : b.session.Peaceful :=
    Session.Peaceful.earlier hcalls (hbw.trans hwt.trail).calls
  have hfitting := (((hb.fitting hpeace).1.shift hbs.shift).entered hsv).steps hvw
  exact secureFactors_of hfactor hfitting.memory hcurrent hsecure

end

/-! ## A block that went back to a checkpoint -/

/-- A block whose Jacobian never changes. -/
def steadyBlock : Block Float Unit 1 where
  problem :=
    { twoBlock.problem with
      options := { Options.standard with residualScaling := .none }
      variability := .constant }
  session := twoBlock.session

/-- The block after it was solved, moved elsewhere and back to the checkpoint it had then, and moved
again. -/
def returnedBlock : Block Float Unit 1 :=
  let b := steadyBlock.solve.2
  (((b.setPoint #[9]).2.restore b.checkpoint).2.setPoint #[7]).2

theorem returnedBlock_lived : Lived returnedBlock [steadyBlock.solve.2.checkpoint] := by
  have hcreate : Lived steadyBlock [] :=
    @Lived.create Float Unit _ 1 "loop" steadyBlock.problem.model () steadyBlock.problem.options 0
      .constant steadyBlock rfl
  have hsolved := (hcreate.after .solve).checkpoint
  exact ((hsolved.after (.setPoint #[9])).restore List.mem_cons_self).after (.setPoint #[7])

set_option maxRecDepth 100000 in
/-- The factorization that came back with the checkpoint is used again. -/
theorem use_factorization_of_returned :
    ∃ s t, prelude returnedBlock.problem returnedBlock.session = .ok () s ∧
      Use returnedBlock.problem s t ∧ t.work.isFactored = true ∧
      t.counters.jacobianEvaluations = steadyBlock.solve.2.session.counters.jacobianEvaluations ∧
      t.work.factorization.Of t.work.jacobian := by
  have hway : comesTo (prelude returnedBlock.problem) returnedBlock.session (fun _ s =>
      comesTo (firstTurn returnedBlock.problem) s fun found u => found.any fun f =>
        comesTo (prepareJacobian returnedBlock.problem 1 u.x f) u fun answer v =>
          answer.toOption.any fun _ =>
            v.work.isFactored && v.calls.toList.all (fun c => c.fatal? = none) &&
              v.counters.jacobianEvaluations ==
                steadyBlock.solve.2.session.counters.jacobianEvaluations) = true := by
    decide +kernel
  obtain ⟨_, s, hs, hway⟩ := exists_of_comesTo hway
  obtain ⟨found, u, hu, hway⟩ := exists_of_comesTo hway
  cases found with
  | none => cases hway
  | some f =>
    obtain ⟨answer, v, hv, hway⟩ := exists_of_comesTo hway
    cases answer with
    | error mishap => cases hway
    | ok fresh =>
      obtain ⟨hway, hcount⟩ := Bool.and_eq_true_iff.1 hway
      obtain ⟨hfactored, hcalls⟩ := Bool.and_eq_true_iff.1 hway
      have hsecure : secureFactors factorize v = .ok true v := by
        unfold secureFactors
        rw [get_bind_apply, if_pos hfactored]
        rfl
      have huse : Use returnedBlock.problem s v :=
        @Use.newton Float Unit _ 1 _ s 1 f u v v v fresh false 0 0 (by decide +kernel)
          (turn_of_firstTurn (by decide +kernel) hu) hv rfl hsecure
      refine ⟨s, v, hs, huse, hfactored, by simpa using hcount, ?_⟩
      exact use_factorization_of returnedBlock_lived hs huse fun c hc =>
        of_decide_eq_true (List.all_eq_true.1 hcalls c hc)

end AlgebraicLoop
