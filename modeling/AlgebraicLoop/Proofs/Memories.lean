import AlgebraicLoop.Proofs.FactorsInUse

/-!
# What a block remembers

What each step of a solve keeps of a memory holds of the memory of a block and of all its checkpoints,
whatever is done with the block. In particular it holds wherever the Jacobian comes to be factored.

* `Recollection`: a property of memories that is kept by each step;
* `Session.Recalls`, `Lived.recalls`: it holds of a block and of its checkpoints;
* `Factoring`, `Factoring.recalls`: where the Jacobian comes to be factored.
-/

namespace AlgebraicLoop
set_option autoImplicit false

section
variable {α σ : Type} [Scalar α] {n : Nat} {P : Problem α σ n} {o s t : Session α σ n}
  {I : Session α σ n → Memory α n → Prop}

/-! ## Steps -/

/-- A property of a memory, seen from a session, that later sessions see as well and that is kept by
whatever is done to the Jacobian. -/
structure Recollection (P : Problem α σ n) (I : Session α σ n → Memory α n → Prop) : Prop where
  fresh : ∀ t, I t (Workspace.fresh n).toMemory
  later : ∀ {s t : Session α σ n} {m : Memory α n}, I s m → Trail s t → I t m
  kept : ∀ {s t : Session α σ n}, I s s.work.toMemory → Trail s t →
    t.work.jacobian = s.work.jacobian → t.work.factorization = s.work.factorization →
    t.work.generation = s.work.generation →
    t.work.flags.jacobianCurrent = s.work.flags.jacobianCurrent →
    t.work.premarkedSingular = s.work.premarkedSingular →
    t.work.flags.singular = s.work.flags.singular → I t t.work.toMemory
  evaluated : ∀ {s t : Session α σ n} {x f : Vector α n} {answer : Except Mishap Unit},
    I s s.work.toMemory → evaluateJacobian P x f s = .ok answer t → I t t.work.toMemory
  cutShort : ∀ {s t : Session α σ n} {x f : Vector α n} {halt : Halt α},
    I s s.work.toMemory → evaluateJacobian P x f s = .error halt t → I t t.work.toMemory
  updated : ∀ {s : Session α σ n} {f : Vector α n} {J : Mat α n n}, I s s.work.toMemory →
    secantUpdate? P.options.jacobianUpdate s.work f = some J →
    I (s.updated J) (s.updated J).work.toMemory
  factored : ∀ {s t : Session α σ n} {usable : Bool},
    factorize s = .ok usable t → I t t.work.toMemory
  factoredDirectly : ∀ {s t : Session α σ n} {usable : Bool}, P.options.method = .direct →
    I s s.work.toMemory → factorDirect s = .ok usable t → I t t.work.toMemory
  marked : ∀ {s q : Session α σ n}, P.options.method = .damped → s.Doubtful P →
    updateResidualScales P q = .ok () s.marked → I s.marked s.marked.work.toMemory

namespace Recollection

theorem step (hI : Recollection P I) (hs : I s s.work.toMemory) (hst : Step P o s t) :
    I t t.work.toMemory := by
  cases hst with
  | aside h =>
    exact hI.kept hs h.trail h.jacobian h.factorization h.generation h.current h.premarked
      h.singular
  | evaluated _ h => exact hI.evaluated hs h
  | rejected h => exact hI.evaluated hs h
  | updated _ _ h => exact hI.updated hs h
  | factored h => exact hI.factored h
  | factoredDirectly hmethod h => exact hI.factoredDirectly hmethod hs h
  | unfactored hmethod hdoubtful h => exact hI.marked hmethod hdoubtful h

theorem steps (hI : Recollection P I) (hs : I s s.work.toMemory) (hst : Steps P o s t) :
    I t t.work.toMemory := by
  induction hst with
  | refl => exact hs
  | tail _ hstep ih => exact hI.step ih hstep

theorem halted (hI : Recollection P I) (hs : I s s.work.toMemory) (hst : Halted P o s t) :
    I t t.work.toMemory := by
  obtain ⟨v, hsv, rfl | ⟨_, f, halt, _, hrun⟩⟩ := hst
  · exact hI.steps hs hsv
  · exact hI.cutShort (hI.steps hs hsv) hrun

theorem of_stock (hI : Recollection P I) (hs : I s s.work.toMemory) (hst : Trail s t)
    (hstock : t.stock = s.stock) : I t t.work.toMemory :=
  hI.kept hs hst (congrArg Prod.snd hstock) (congrArg (fun p => p.1.factorization) hstock)
    (congrArg (fun p => p.1.generation) hstock) (congrArg (fun p => p.1.current) hstock)
    (congrArg (fun p => p.1.premarked) hstock) (congrArg (fun p => p.1.singular) hstock)

end Recollection

/-! ## Operations -/

/-- The property holds of what a session remembers, and of its accepted outer step. -/
structure Session.Recalls (I : Session α σ n → Memory α n → Prop) (s : Session α σ n) : Prop where
  memory : I s s.work.toMemory
  accepted : ∀ c, s.work.accepted = some c → I s c.memory

namespace Session.Recalls

theorem of_fresh (hI : Recollection P I) (h : s.work = Workspace.fresh n) : s.Recalls I where
  memory := h ▸ hI.fresh s
  accepted c hc := by
    rw [h] at hc
    cases hc

/-- What an operation does to the memory counts, and the accepted outer step stays. -/
theorem reach (hI : Recollection P I) (h : s.Recalls I)
    (hst : Course (fun s => s.work.accepted) s t) (ht : I t t.work.toMemory) : t.Recalls I where
  memory := ht
  accepted c hc := hI.later (h.accepted c (hst.keeps.symm.trans hc)) hst.trail

theorem shift (hI : Recollection P I) (h : s.Recalls I) (hst : Shift s t) : t.Recalls I :=
  h.reach hI hst.course (hI.of_stock h.memory hst.course.trail hst.stock)

theorem aside (hI : Recollection P I) (h : s.Recalls I) (hst : Aside s t) : t.Recalls I :=
  h.reach hI (Step.course (P := P) (o := s) (.aside hst))
    (hI.step (o := s) h.memory (.aside hst))

theorem halted (hI : Recollection P I) (h : s.Recalls I) (hst : Halted P o s t) : t.Recalls I :=
  h.reach hI hst.course (hI.halted h.memory hst)

theorem entered (hI : Recollection P I) (h : s.Recalls I) (hst : Entered P s t) : t.Recalls I := by
  have htrail : Trail s t := hst.trail
  cases hst with
  | atOnce _ => exact h
  | opened _ hopen =>
    cases hopen with
    | @inPlace v hshift =>
      have hv := h.shift hI hshift
      have hpinned : Course (fun s => s.work.accepted) v v.unpinned := Course.of_eq rfl rfl rfl
      exact hv.reach hI hpinned (hI.kept hv.memory hpinned.trail rfl rfl rfl rfl rfl rfl)
    | wentBack _ _ _ _ hc =>
      exact ⟨hI.later (h.accepted _ hc) htrail, fun d hd => hI.later (h.accepted d hd) htrail⟩

theorem passage (hI : Recollection P I) (h : s.Recalls I) (hst : Passage P s t) : t.Recalls I := by
  cases hst with
  | stopped hst => exact h.shift hI hst.shift
  | unstarted hsr _ hrv hvt => exact ((h.shift hI hsr.shift).shift hI hrv).aside hI hvt
  | solved hsr hrv hvw hwt =>
    exact (((h.shift hI hsr.shift).entered hI hrv).halted hI hvw).aside hI hwt

theorem inspection (hI : Recollection P I) (h : s.Recalls I) (hst : Inspection P s t) :
    t.Recalls I := by
  cases hst with
  | stopped hst => exact h.shift hI hst.shift
  | evaluated hsr hrt => exact (h.shift hI hsr.shift).halted hI hrt

/-- A change of anything but the workspace. -/
theorem elsewhere (hI : Recollection P I) (h : s.Recalls I) (hst : Trail s t)
    (hwork : t.work = s.work) : t.Recalls I where
  memory := by
    rw [hwork]
    exact hI.later h.memory hst
  accepted c hc := by
    rw [hwork] at hc
    exact hI.later (h.accepted c hc) hst

theorem after {b : Block α σ n} (hI : Recollection b.problem I) (h : b.session.Recalls I)
    (operation : Operation α) : (b.after operation).session.Recalls I := by
  cases operation with
  | solve => exact h.passage hI b.passage
  | setPoint x => exact h.shift hI (b.setPoint_shift x)
  | evaluateJacobian => exact h.inspection hI b.inspection.1
  | factorizeJacobian => exact h.inspection hI b.inspection.2
  | completedOuterStep =>
    have hmemory := hI.later h.memory (b.trail_after .completedOuterStep)
    refine ⟨hmemory, fun c hc => ?_⟩
    cases hc
    exact hmemory

end Session.Recalls

/-- Whatever happened to a block, the property holds of what it and its checkpoints remember. -/
theorem Lived.recalls {I : Problem α σ n → Session α σ n → Memory α n → Prop}
    (hI : ∀ P, Recollection P (I P)) {b : Block α σ n} {kept : List (Checkpoint α n)}
    (h : Lived b kept) :
    b.session.Recalls (I b.problem) ∧ ∀ c ∈ kept, I b.problem b.session c.memory := by
  induction h with
  | create h =>
    obtain ⟨_, rfl⟩ := Block.create_eq_ok h
    exact ⟨.of_fresh (hI _) rfl, List.forall_mem_nil _⟩
  | @after b kept operation _ ih =>
    rw [Block.after_problem]
    exact ⟨ih.1.after (hI _) operation, fun c hc =>
      (hI _).later (ih.2 c hc) (b.trail_after operation)⟩
  | @notifyEvent b kept _ ih =>
    have htrail : Trail b.session b.notifyEvent.session := Course.of_eq rfl rfl rfl
    exact ⟨ih.1.elsewhere (hI _) htrail rfl, fun c hc => (hI _).later (ih.2 c hc) htrail⟩
  | @modifyModel b kept change _ ih =>
    have htrail : Trail b.session (b.modifyModel change).session := Course.of_eq rfl rfl rfl
    exact ⟨ih.1.elsewhere (hI _) htrail rfl, fun c hc => (hI _).later (ih.2 c hc) htrail⟩
  | @teardown b kept _ ih =>
    have htrail : Trail b.session b.teardown.session := Course.of_eq rfl rfl rfl
    exact ⟨.of_fresh (hI _) rfl, fun c hc => (hI _).later (ih.2 c hc) htrail⟩
  | checkpoint _ ih => exact ⟨ih.1, List.forall_mem_cons.2 ⟨ih.1.memory, ih.2⟩⟩
  | @restore b kept c _ hc ih =>
    rw [Block.restore_eq]
    have htrail : Trail b.session (b.session.rewound c) := Course.of_eq rfl rfl rfl
    exact ⟨⟨(hI _).later (ih.2 c hc) htrail, fun d hd => (hI _).later (ih.1.accepted d hd) htrail⟩,
      fun d hd => (hI _).later (ih.2 d hd) htrail⟩

/-! ## Where the Jacobian comes to be factored -/

/-- The block comes to factor its Jacobian, and to look for what can stand in for one that cannot be
factored: in an iteration of a solve whose factorization is out of date, or because it was asked to. -/
inductive Factoring (b : Block α σ n) : Session α σ n → Prop
  | solving {k : Nat} {f : Vector α n} {s u v w : Session α σ n} {fresh tighten : Bool}
      {norm norm' : α} :
      b.problem.options.method ≠ .direct → prelude b.problem b.session = .ok () s →
      Turn b.problem s k f u → prepareJacobian b.problem k u.x f u = .ok (.ok fresh) v →
      tightenedNorm b.problem tighten k fresh u.x f norm v = .ok norm' w →
      w.work.isFactored = false → Factoring b w
  | asked {s : Session α σ n} : freshJacobian b.problem b.session = .ok () s → Factoring b s

/-- What is remembered where the Jacobian comes to be factored. -/
theorem Factoring.recalls {b : Block α σ n} (hI : Recollection b.problem I)
    (hb : b.session.Recalls I) (h : Factoring b s) : I s s.work.toMemory := by
  cases h with
  | @solving k f r u v _ fresh tighten norm norm' _ hs hturn hprepare htighten _ =>
    obtain ⟨e, hre, heu, hf⟩ := hturn.reached
    have hev : Steps b.problem e e v := heu.trans ((treads_prepareJacobian hf).ok hprepare)
    have hvs : Aside v s :=
      (aside_tightenedNorm b.problem tighten k fresh u.x f norm).ok htighten
    have hbr := ((approached_prelude b.problem).ok hs).shift
    exact hI.steps (((hb.shift hI hbr).entered hI hre).memory) (hev.trans (Steps.of_aside hvs))
  | asked hs =>
    obtain ⟨r, hbr, hrs⟩ := (freshJacobian_inspection b.problem b.session).ok hs
    exact hI.steps (hb.shift hI hbr.shift).memory hrs

end

end AlgebraicLoop
