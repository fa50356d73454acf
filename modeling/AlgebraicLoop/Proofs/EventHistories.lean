import AlgebraicLoop.Proofs.Passages

/-!
# Events and the Jacobian

An event makes the Jacobian of a block worthless whose coefficients change at events. The block marks
that; the next fresh evaluation takes the mark off, also where only the residual scales ask for it.
A checkpoint keeps a Jacobian without saying whether it is older than the event, so going back to one
when the mark is off can bring a worthless Jacobian back.

* `Renewed`: the Jacobian comes from an evaluation after the event;
* `AfterEvent`: what may follow on an event;
* `prepareJacobian_renewed`: the Jacobian of every iteration is a renewed one then.
-/

namespace AlgebraicLoop
set_option autoImplicit false

section
variable {α σ : Type} [Scalar α] {n : Nat} {P : Problem α σ n} {e o s t u : Session α σ n}

/-! ## Jacobians that come from an evaluation -/

/-- The second matrix was made from the first one, by secant updates and by evaluations that a fatal
answer cut short. -/
inductive Stems (P : Problem α σ n) (J : Mat α n n) : Mat α n n → Prop
  | refl : Stems P J J
  | updated {w : Workspace α n} {f : Vector α n} {K : Mat α n n} :
      Stems P J w.jacobian → secantUpdate? P.options.jacobianUpdate w f = some K → Stems P J K
  | torn {x f : Vector α n} {halt : Halt α} {s t : Session α σ n} :
      Stems P J s.work.jacobian → evaluateJacobian P x f s = .error halt t →
      Stems P J t.work.jacobian

/-- The matrix comes from a Jacobian that was computed between two sessions, at a point whose residual
had been found. -/
def Renewed (P : Problem α σ n) (e t : Session α σ n) (J : Mat α n n) : Prop :=
  ∃ f s y, Trail e s ∧ Evaluated e s s.x f ∧ Sourced P s.x f s y ∧ Trail y t ∧
    Stems P y.work.jacobian J

theorem Renewed.later {J : Mat α n n} (h : Renewed P e s J) (hst : Trail s t) : Renewed P e t J := by
  obtain ⟨f, r, y, her, hf, hsource, hys, hstems⟩ := h
  exact ⟨f, r, y, her, hf, hsource, hys.trans hst, hstems⟩

/-- Without the mark of an event the Jacobian is a renewed one, if it can be used at all. -/
structure Unspoiled (P : Problem α σ n) (e t : Session α σ n) : Prop where
  trail : Trail e t
  renewed : t.eventSinceJacobian = false → t.work.flags.jacobianCurrent = true →
    Renewed P e t t.work.jacobian

namespace Unspoiled

theorem keep (h : Unspoiled P e s) (hst : Trail s t)
    (hevent : t.eventSinceJacobian = s.eventSinceJacobian)
    (hcurrent : t.work.flags.jacobianCurrent = s.work.flags.jacobianCurrent)
    (hjacobian : t.work.jacobian = s.work.jacobian) : Unspoiled P e t := by
  refine ⟨h.trail.trans hst, ?_⟩
  rw [hevent, hcurrent, hjacobian]
  exact fun he hc => (h.renewed he hc).later hst

theorem of_stock (h : Unspoiled P e s) (hst : Trail s t) (hstock : t.stock = s.stock) :
    Unspoiled P e t :=
  h.keep hst (congrArg (fun p => p.1.eventSince) hstock) (congrArg (fun p => p.1.current) hstock)
    (congrArg Prod.snd hstock)

theorem aside (h : Unspoiled P e s) (hst : Aside s t) : Unspoiled P e t :=
  h.keep hst.trail hst.event hst.current hst.jacobian

/-- An evaluation at the point of a session, whose residual was found since the event. -/
theorem sourced {f : Vector α n} (h : Unspoiled P e s) (hf : Evaluated e s s.x f) (hst : Trail s t)
    (hsource : Sourced P s.x f s t) : Unspoiled P e t :=
  ⟨h.trail.trans hst, fun _ _ => ⟨f, s, t, h.trail, hf, hsource, Course.refl _ t, .refl⟩⟩

theorem refactored {usable : Bool} (h : Unspoiled P e s) (hst : Trail s t)
    (hfactored : Refactored s.dated t usable) : Unspoiled P e t :=
  h.keep hst (congrArg Marks.eventSince hfactored.marks) (congrArg Marks.current hfactored.marks)
    hfactored.jacobian

theorem step (h : Unspoiled P e s) (hst : Step P e s t) : Unspoiled P e t := by
  have htrail : Trail s t := hst.course.trail
  cases hst with
  | aside hst => exact h.aside hst
  | evaluated hf hrun => exact h.sourced hf htrail ((evaluateJacobian_after P _ _ s).ok hrun).2
  | rejected hrun =>
    have hmarks := (evaluateJacobian_after P _ _ s).ok hrun
    have hrejected : t.work.flags.jacobianCurrent = false := congrArg Marks.current hmarks
    refine ⟨h.trail.trans htrail, fun _ hcurrent => ?_⟩
    rw [hrejected] at hcurrent
    cases hcurrent
  | updated hcurrent _ hJ =>
    refine ⟨h.trail.trans htrail, fun he _ => ?_⟩
    obtain ⟨f, r, y, her, hf, hsource, hys, hstems⟩ := h.renewed he hcurrent
    exact ⟨f, r, y, her, hf, hsource, hys.trans htrail, hstems.updated hJ⟩
  | factored hrun => exact h.refactored htrail ((factorize_after s).ok hrun)
  | factoredDirectly _ hrun => exact h.refactored htrail ((factorDirect_after s).ok hrun)
  | unfactored _ _ _ => exact h.keep htrail rfl rfl rfl

theorem steps (h : Unspoiled P e s) (hst : Steps P e s t) : Unspoiled P e t := by
  induction hst with
  | refl => exact h
  | tail _ hstep ih => exact ih.step hstep

/-- An evaluation that is cut short leaves columns of its own in a renewed Jacobian. -/
theorem torn (h : Unspoiled P e s) (hst : Torn P e s t) : Unspoiled P e t := by
  have htrail : Trail s t := hst.course.trail
  obtain ⟨_, f, halt, hf, hrun⟩ := hst
  obtain hmarks | ⟨_, hsource⟩ := (evaluateJacobian_after P s.x f s).error hrun
  · have hevent : t.eventSinceJacobian = s.eventSinceJacobian := congrArg Marks.eventSince hmarks
    have hcurrent : t.work.flags.jacobianCurrent = s.work.flags.jacobianCurrent :=
      congrArg Marks.current hmarks
    refine ⟨h.trail.trans htrail, ?_⟩
    rw [hevent, hcurrent]
    intro he hc
    obtain ⟨f, r, y, her, hf, hsource, hys, hstems⟩ := h.renewed he hc
    exact ⟨f, r, y, her, hf, hsource, hys.trans htrail, hstems.torn hrun⟩
  · exact h.sourced hf htrail hsource

theorem halted (h : Unspoiled P e s) (hst : Halted P e s t) : Unspoiled P e t := by
  obtain ⟨v, hsv, rfl | htorn⟩ := hst
  · exact h.steps hsv
  · exact (h.steps hsv).torn htorn

end Unspoiled

/-! ## What may follow on an event -/

theorem Approached.resumed (h : Approached P s t) : resumed? P t = resumed? P s := by
  obtain ⟨hwork, hrest⟩ := Prod.mk.inj h.course.keeps
  obtain ⟨hevent, hrest⟩ := Prod.mk.inj hrest
  obtain ⟨_, hguess⟩ := Prod.mk.inj hrest
  unfold resumed?
  rw [hwork, hevent, hguess]

/-- Going back to the checkpoint leaves the mark of the event on, or brings a renewed Jacobian
back. -/
def Vouched (P : Problem α σ n) (e s : Session α σ n) (c : Checkpoint α n) : Prop :=
  s.eventSinceJacobian = true ∨
    (c.memory.flags.jacobianCurrent = true → Renewed P e s c.memory.jacobian)

theorem Vouched.later {c : Checkpoint α n} (h : Vouched P e s c) (hst : Trail s t)
    (hevent : t.eventSinceJacobian = s.eventSinceJacobian) : Vouched P e t c := by
  unfold Vouched
  rw [hevent]
  exact h.imp id fun hrenewed hcurrent => (hrenewed hcurrent).later hst

/-- Every checkpoint that a solve may go back to can be vouched for. -/
def Resumable (P : Problem α σ n) (e s : Session α σ n) : Prop :=
  ∀ c, resumed? P s = some c → Vouched P e s c

theorem Approached.resumable (h : Approached P s t) (hs : Resumable P e s) : Resumable P e t := by
  intro c hc
  rw [h.resumed] at hc
  exact (hs c hc).later h.course.trail (congrArg (fun p => p.1.eventSince) h.shift.stock)

namespace Unspoiled

theorem rewound {c : Checkpoint α n} (h : Unspoiled P e s) (hc : Vouched P e s c) :
    Unspoiled P e (s.rewound c) := by
  have htrail : Trail s (s.rewound c) := Course.of_eq rfl rfl rfl
  refine ⟨h.trail.trans htrail, fun he hcurrent => ?_⟩
  obtain hspoiled | hrenewed := hc
  · have he : s.eventSinceJacobian = false := he
    rw [hspoiled] at he
    cases he
  · exact (hrenewed hcurrent).later htrail

theorem entered (h : Unspoiled P e s) (hs : Resumable P e s) (hst : Entered P s t) :
    Unspoiled P e t := by
  cases hst with
  | atOnce _ => exact h
  | opened _ hopen =>
    cases hopen with
    | inPlace hshift =>
      have ht := h.of_stock hshift.course.trail hshift.stock
      exact ht.keep (Course.of_eq rfl rfl rfl) rfl rfl rfl
    | @wentBack c hoption hready hevent hguess hc =>
      have hresumed : resumed? P s = some c :=
        resumed?_eq_some.2 ⟨⟨hoption, hready, hevent, hguess⟩, hc⟩
      have hemptied := h.of_stock (trail_emptied s) rfl
      exact hemptied.rewound ((hs c hresumed).later (trail_emptied s) rfl)

theorem passage (h : Unspoiled P e s) (hs : Resumable P e s) (hst : Passage P s t) :
    Unspoiled P e t := by
  cases hst with
  | stopped hst => exact h.of_stock hst.course.trail hst.shift.stock
  | unstarted hsr _ hrv hvt =>
    have hr := h.of_stock hsr.course.trail hsr.shift.stock
    exact (hr.of_stock hrv.course.trail hrv.stock).aside hvt
  | solved hsr hrv hvw hwt =>
    have hr := h.of_stock hsr.course.trail hsr.shift.stock
    have hv := hr.entered (hsr.resumable hs) hrv
    exact (hv.halted (hvw.since hv.trail)).aside hwt

theorem inspection (h : Unspoiled P e s) (hst : Inspection P s t) : Unspoiled P e t := by
  cases hst with
  | stopped hst => exact h.of_stock hst.course.trail hst.shift.stock
  | evaluated hsr hrt =>
    have hr := h.of_stock hsr.course.trail hsr.shift.stock
    exact hr.halted (hrt.since hr.trail)

end Unspoiled

/-- A checkpoint that a block may go back to without harm: one of the kept ones, or one without a
usable Jacobian. While the mark of an event is on, any will do. -/
def Block.MayReturnTo (b : Block α σ n) (kept : List (Checkpoint α n)) (c : Checkpoint α n) : Prop :=
  b.session.eventSinceJacobian = true ∨ (c.memory.flags.jacobianCurrent = true → c ∈ kept)

/-- The checkpoint that the next solve may start from is one to go back to without harm. -/
def Block.Careful (b : Block α σ n) (kept : List (Checkpoint α n)) : Prop :=
  ∀ c, resumed? b.problem b.session = some c → b.MayReturnTo kept c

omit [Scalar α] in
/-- A solve that does not start from an accepted outer step goes back nowhere. -/
theorem Block.Careful.of_option {b : Block α σ n} {kept : List (Checkpoint α n)}
    (h : b.problem.options.startFromAccepted = false) : b.Careful kept := by
  intro c hc
  rw [resumed?_of_option h] at hc
  cases hc

/-- The blocks that are reached after an event without another one, and the checkpoints that were
taken on the way while the mark of the event was off. With the mark off there is no way back to a
Jacobian that any other checkpoint keeps. -/
inductive AfterEvent (b₀ : Block α σ n) : Block α σ n → List (Checkpoint α n) → Prop where
  | notified : AfterEvent b₀ b₀.notifyEvent []
  | after {b : Block α σ n} {kept : List (Checkpoint α n)} (operation : Operation α) :
      AfterEvent b₀ b kept → (operation = .solve → b.Careful kept) →
      AfterEvent b₀ (b.after operation) kept
  | modifyModel {b : Block α σ n} {kept : List (Checkpoint α n)} (change : σ → σ) :
      AfterEvent b₀ b kept → AfterEvent b₀ (b.modifyModel change) kept
  | teardown {b : Block α σ n} {kept : List (Checkpoint α n)} :
      AfterEvent b₀ b kept → AfterEvent b₀ b.teardown kept
  | checkpoint {b : Block α σ n} {kept : List (Checkpoint α n)} :
      AfterEvent b₀ b kept → b.session.eventSinceJacobian = false →
      AfterEvent b₀ b (b.checkpoint :: kept)
  | restore {b : Block α σ n} {kept : List (Checkpoint α n)} {c : Checkpoint α n} :
      AfterEvent b₀ b kept → b.MayReturnTo kept c → AfterEvent b₀ (b.restore c).2 kept

theorem Block.MayReturnTo.vouched {b : Block α σ n} {kept : List (Checkpoint α n)}
    {c : Checkpoint α n} (h : b.MayReturnTo kept c)
    (hkept : ∀ c ∈ kept, c.memory.flags.jacobianCurrent = true →
      Renewed P e b.session c.memory.jacobian) : Vouched P e b.session c :=
  h.imp id fun hmem hcurrent => hkept c (hmem hcurrent) hcurrent

/-- After an event a block without the mark of it has a renewed Jacobian, and so have the kept
checkpoints. -/
theorem AfterEvent.unspoiled {b₀ b : Block α σ n} {kept : List (Checkpoint α n)}
    (h : AfterEvent b₀ b kept) : Unspoiled b.problem b₀.notifyEvent.session b.session ∧
      ∀ c ∈ kept, c.memory.flags.jacobianCurrent = true →
        Renewed b.problem b₀.notifyEvent.session b.session c.memory.jacobian := by
  induction h with
  | notified =>
    have hmarked : b₀.notifyEvent.session.eventSinceJacobian = true := rfl
    refine ⟨⟨Course.refl _ _, fun he _ => ?_⟩, List.forall_mem_nil _⟩
    rw [hmarked] at he
    cases he
  | @after b kept operation _ hcareful ih =>
    obtain ⟨hb, hkept⟩ := ih
    rw [Block.after_problem]
    refine ⟨?_, fun c hc hcurrent => (hkept c hc hcurrent).later (b.trail_after operation)⟩
    cases operation with
    | solve => exact hb.passage (fun c hc => (hcareful rfl c hc).vouched hkept) b.passage
    | setPoint x => exact hb.of_stock (b.setPoint_shift x).course.trail (b.setPoint_shift x).stock
    | evaluateJacobian => exact hb.inspection b.inspection.1
    | factorizeJacobian => exact hb.inspection b.inspection.2
    | completedOuterStep => exact hb.keep (Course.of_eq rfl rfl rfl) rfl rfl rfl
  | @modifyModel b kept change _ ih =>
    obtain ⟨hb, hkept⟩ := ih
    have htrail : Trail b.session (b.modifyModel change).session := Course.of_eq rfl rfl rfl
    exact ⟨hb.keep htrail rfl rfl rfl, fun c hc hcurrent => (hkept c hc hcurrent).later htrail⟩
  | @teardown b kept _ ih =>
    obtain ⟨hb, hkept⟩ := ih
    have htrail : Trail b.session b.teardown.session := Course.of_eq rfl rfl rfl
    refine ⟨⟨hb.trail.trans htrail, fun _ hcurrent => ?_⟩,
      fun c hc hcurrent => (hkept c hc hcurrent).later htrail⟩
    have hfresh : b.teardown.session.work.flags.jacobianCurrent = false := rfl
    rw [hfresh] at hcurrent
    cases hcurrent
  | checkpoint _ hoff ih =>
    obtain ⟨hb, hkept⟩ := ih
    exact ⟨hb, List.forall_mem_cons.2 ⟨hb.renewed hoff, hkept⟩⟩
  | @restore b kept c _ hc ih =>
    obtain ⟨hb, hkept⟩ := ih
    rw [Block.restore_eq]
    refine ⟨hb.rewound (hc.vouched hkept), fun d hd hcurrent => ?_⟩
    exact (hkept d hd hcurrent).later (Course.of_eq rfl rfl rfl)

/-! ## The mark of the event during a solve -/

theorem Step.event_off (h : Step P o s t) (hs : s.eventSinceJacobian = false) :
    t.eventSinceJacobian = false := by
  cases h with
  | aside h => exact h.event.trans hs
  | evaluated _ hrun => exact congrArg Marks.eventSince ((evaluateJacobian_after P _ _ s).ok hrun).1
  | rejected hrun =>
    have hmarks := (evaluateJacobian_after P _ _ s).ok hrun
    exact (congrArg Marks.eventSince hmarks).trans hs
  | updated _ _ _ => exact hs
  | factored hrun => exact (congrArg Marks.eventSince ((factorize_after s).ok hrun).marks).trans hs
  | factoredDirectly _ hrun =>
    exact (congrArg Marks.eventSince ((factorDirect_after s).ok hrun).marks).trans hs
  | unfactored _ _ _ => exact hs

theorem Steps.event_off (h : Steps P o s t) (hs : s.eventSinceJacobian = false) :
    t.eventSinceJacobian = false := by
  induction h with
  | refl => exact hs
  | tail _ hstep ih => exact hstep.event_off ih

/-- A Jacobian that was evaluated at the point takes the mark of the event off. -/
def Session.Heeded (s : Session α σ n) : Prop :=
  s.work.jacobianAtPoint = true → s.eventSinceJacobian = false

theorem Step.heeded (h : Step P o s t) (hs : s.Heeded) : t.Heeded := by
  intro hpoint
  have marked : s.work.jacobianAtPoint = true → t.eventSinceJacobian = false := fun hs' =>
    h.event_off (hs hs')
  cases h with
  | aside h => exact marked (h.atPoint hpoint).1
  | evaluated _ hrun => exact congrArg Marks.eventSince ((evaluateJacobian_after P _ _ s).ok hrun).1
  | rejected hrun =>
    have hmarks := (evaluateJacobian_after P _ _ s).ok hrun
    rw [show t.work.jacobianAtPoint = false from congrArg Marks.atPoint hmarks] at hpoint
    cases hpoint
  | updated _ _ _ => exact marked hpoint
  | factored hrun =>
    exact marked ((congrArg Marks.atPoint ((factorize_after s).ok hrun).marks).symm.trans hpoint)
  | factoredDirectly _ hrun =>
    exact marked ((congrArg Marks.atPoint ((factorDirect_after s).ok hrun).marks).symm.trans hpoint)
  | unfactored _ _ _ => exact marked hpoint

theorem Steps.heeded (h : Steps P o s t) (hs : s.Heeded) : t.Heeded := by
  induction h with
  | refl => exact hs
  | tail _ hstep ih => exact hstep.heeded ih

/-- In the first iteration of an attempt a discrete Jacobian is kept only if no event came after it;
later the mark of an event is off already. -/
theorem prepareJacobian_event_off {k : Nat} {x f : Vector α n} {fresh : Bool}
    (hvariability : P.variability = .discrete) (hs : s.Heeded)
    (hk : k = 1 ∨ s.eventSinceJacobian = false)
    (h : prepareJacobian P k x f s = .ok (.ok fresh) t) : t.eventSinceJacobian = false := by
  have hrun := (prepareJacobian_after P k x f s).ok h
  cases fresh with
  | true =>
    obtain ⟨hready, rfl⟩ | ⟨_, hrun⟩ := hrun
    · exact hs hready.atPoint
    · exact congrArg Marks.eventSince ((evaluateJacobian_after P x f s).ok hrun).1
  | false =>
    obtain ⟨hreusable, hreused⟩ := hrun
    have hoff : s.eventSinceJacobian = false := by
      obtain hk | hoff := hk
      · have hreusable := hreusable.reusable hk
        rw [hvariability] at hreusable
        simpa [Variability.reusable] using hreusable
      · exact hoff
    obtain rfl | ⟨J, _, rfl⟩ := hreused
    · exact hoff
    · exact hoff

/-- From its second iteration on, an attempt has a Jacobian that is younger than the event. -/
theorem Walk.event_off {tol : Tolerances α} {descent : Bool} {k : Nat} {path : List (Waypoint α n)}
    {progress : Progress α n} (hvariability : P.variability = .discrete) (hs : s.Heeded)
    (h : Walk P tol descent s k path progress u) :
    (∃ f norm record, progress = .onward f norm record) →
      k = 0 ∨ u.eventSinceJacobian = false := by
  have next : ∀ {k : Nat} {path : List (Waypoint α n)} {f : Vector α n} {norm : α}
      {record : RunRecord α} {u v t : Session α σ n} {q : Heading α n} {progress : Progress α n},
      Walk P tol descent s k path (.onward f norm record) u →
      (k = 0 ∨ u.eventSinceJacobian = false) →
      heading P tol descent (tightensScales P.options s.work) (k + 1) f norm record u =
        .ok (.inr q) v →
      searchAndMove P tol (k + 1) q.fresh u.x f q.norm record q.step q.kind v = .ok progress t →
      t.eventSinceJacobian = false := by
    intro k path f norm record u v t q progress hwalk hk hheading hmove
    obtain ⟨w, hprepare, hwv⟩ := heading_prepared hheading
    have hu : u.Heeded := (hwalk.steps (Course.refl _ s)).heeded hs
    have hw : w.eventSinceJacobian = false :=
      prepareJacobian_event_off hvariability hu (hk.imp (congrArg Nat.succ) id) hprepare
    have hvt : Aside v t := (aside_searchAndMove P ..).ok hmove
    exact hvt.event.trans (hwv.event_off hw)
  rintro ⟨f, norm, record, rfl⟩
  generalize hprogress : Progress.onward f norm record = progress at h
  induction h generalizing f norm record with
  | undefined _ => cases hprogress
  | solved _ _ => cases hprogress
  | start _ _ => exact .inl rfl
  | exhausted _ _ _ => cases hprogress
  | gaveUp _ _ _ _ => cases hprogress
  | stays hwalk _ hheading _ hmove ih =>
    exact .inr (next hwalk (ih _ _ _ rfl) hheading hmove)
  | moves hwalk _ hheading _ hmove ih =>
    exact .inr (next hwalk (ih _ _ _ rfl) hheading hmove)

end

/-! ## A block that went back to a checkpoint from after an event -/

/-- A block whose Jacobian changes at events only, solved once. -/
def discreteBlock : Block Float Unit 1 :=
  let b : Block Float Unit 1 :=
    { problem :=
        { twoBlock.problem with
          options := { Options.standard with residualScaling := .none }
          variability := .discrete }
      session := twoBlock.session }
  b.solve.2

/-- The block after an event and another solve. -/
def renewedBlock : Block Float Unit 1 := (discreteBlock.notifyEvent.setPoint #[5]).2.solve.2

/-- The block moved elsewhere, back to where it was after the event, and to a point nearby. -/
def revisitedBlock : Block Float Unit 1 :=
  (((renewedBlock.setPoint #[9]).2.restore renewedBlock.checkpoint).2.setPoint #[7]).2

set_option maxRecDepth 100000 in
theorem revisitedBlock_afterEvent :
    AfterEvent discreteBlock revisitedBlock [renewedBlock.checkpoint] := by
  have hmoved : AfterEvent discreteBlock (discreteBlock.notifyEvent.setPoint #[5]).2 [] :=
    AfterEvent.notified.after (.setPoint #[5]) nofun
  have hsolved : AfterEvent discreteBlock renewedBlock [] :=
    hmoved.after .solve fun _ => .of_option (by decide +kernel)
  have hkept := (hsolved.checkpoint (by decide +kernel)).after (.setPoint #[9]) nofun
  exact (hkept.restore (.inr fun _ => List.mem_cons_self)).after (.setPoint #[7]) nofun

end AlgebraicLoop
