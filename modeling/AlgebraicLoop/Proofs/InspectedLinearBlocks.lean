import AlgebraicLoop.Proofs.Counterparts
import AlgebraicLoop.Proofs.FactorsInUse

/-!
# Inspected linear blocks

The direct method factors a Jacobian in its own way: by elimination, else for least-norm steps. The
factorization that is asked for between two solves is made in another way, which may put a
regularized matrix or a sign rule in the place of a singular Jacobian. Both share one store. A
direct solve that finds such a replacement there takes it for a factorization of its own, and cannot
use it.

* `Session.Direct`: the factorization at hand is the one that the direct method makes;
* `Akin`: sessions that differ in what they know of the factorization only;
* `Timely`: no factorization of a linear block is newer than its Jacobian;
* `Oblivious`: actions that do not look at the factorization;
* `Paired`, `solveAction_paired`: direct solves side by side, with no factorization that the direct
  method would not have made;
* `Session.Replaced`, `solveAction_replaced`: direct solves that find such a one;
* `solve_after_factorize`: a solve after a factorization was asked for.
-/

namespace AlgebraicLoop
set_option autoImplicit false

section
variable {α σ : Type} [Scalar α] {n : Nat} {P : Problem α σ n} {s t u : Session α σ n}

/-! ## Factorizations of the direct method -/

/-- The factorization is not one of the Jacobian, but of what stands in for it. -/
def Factorization.standsIn : Factorization α n → Bool
  | .regularized _ | .scalar => true
  | .none | .lu _ | .minimumNorm _ => false

/-- The factorization at hand, if it belongs to the Jacobian, is the one of the direct method. -/
def Session.Direct (s : Session α σ n) : Prop :=
  s.work.isFactored = true → s.work.factorization = directFactors s.work.jacobian

omit [Scalar α] in
/-- Only the Jacobian, its factorization and the marks on both count. -/
theorem Session.Ready.of_stock (h : s.Ready) (hst : t.stock = s.stock) : t.Ready where
  current := (congrArg (fun p => p.1.current) hst).trans h.current
  atPoint := (congrArg (fun p => p.1.atPoint) hst).trans h.atPoint
  unforced := (congrArg (fun p => p.1.forced) hst).trans h.unforced

omit [Scalar α] in
theorem factors_of_stock (hst : t.stock = s.stock) :
    t.work.isFactored = s.work.isFactored ∧ t.work.factorization = s.work.factorization := by
  have hfactorization : t.work.factorization = s.work.factorization :=
    congrArg (fun p => p.1.factorization) hst
  have hgeneration : t.work.generation = s.work.generation := congrArg (fun p => p.1.generation) hst
  have hfactored : t.work.factoredGeneration = s.work.factoredGeneration :=
    congrArg (fun p => p.1.factoredGeneration) hst
  unfold Workspace.isFactored
  rw [hfactorization, hgeneration, hfactored]
  exact ⟨rfl, rfl⟩

theorem Session.Direct.of_stock (h : s.Direct) (hst : t.stock = s.stock) : t.Direct := by
  obtain ⟨hfactored, hfactorization⟩ := factors_of_stock hst
  have hjacobian : t.work.jacobian = s.work.jacobian := congrArg Prod.snd hst
  unfold Session.Direct
  rw [hfactored, hfactorization, hjacobian]
  exact h

/-! ## Sessions that differ in their factorization -/

/-- What a session knows of the factorization of its Jacobian. -/
structure Outfit (α : Type) (n : Nat) where
  factorization : Factorization α n
  factoredGeneration : Option Nat
  premarkedSingular : Bool
  singular : Bool
  recovery : RecoveryMode

/-- The session with another factorization of its Jacobian, and other notices. -/
def Session.refit (s : Session α σ n) (o : Outfit α n) (notices : Array (Notice α)) :
    Session α σ n :=
  { s with
    notices
    work :=
      { s.work with
        factorization := o.factorization
        factoredGeneration := o.factoredGeneration
        premarkedSingular := o.premarkedSingular
        recovery := o.recovery
        flags := { s.work.flags with singular := o.singular } } }

/-- What the session knows of the factorization. -/
def Session.outfit (s : Session α σ n) : Outfit α n where
  factorization := s.work.factorization
  factoredGeneration := s.work.factoredGeneration
  premarkedSingular := s.work.premarkedSingular
  singular := s.work.flags.singular
  recovery := s.work.recovery

/-- The two sessions differ in what they know of the factorization, and in their notices. -/
def Akin (s t : Session α σ n) : Prop := t = s.refit t.outfit t.notices

namespace Akin

omit [Scalar α] in
theorem refl (s : Session α σ n) : Akin s s := rfl

omit [Scalar α] in
theorem exists_refit (h : Akin s t) : ∃ o notices, t = s.refit o notices := ⟨_, _, h⟩

omit [Scalar α] in
theorem symm (h : Akin s t) : Akin t s := by
  obtain ⟨o, notices, rfl⟩ := h.exists_refit
  rfl

omit [Scalar α] in
theorem trans (hst : Akin s t) (htu : Akin t u) : Akin s u := by
  obtain ⟨o, notices, rfl⟩ := hst.exists_refit
  exact htu

omit [Scalar α] in
theorem ready (h : Akin s t) (hs : s.Ready) : t.Ready := by
  obtain ⟨o, notices, rfl⟩ := h.exists_refit
  exact ⟨hs.current, hs.atPoint, hs.unforced⟩

end Akin

/-! ## Factorizations are not newer than the Jacobian -/

/-- No factorization is newer than the Jacobian, and the Jacobian was not marked as singular
beforehand. -/
structure Memory.Timely (m : Memory α n) : Prop where
  dated : ∀ g, m.factoredGeneration = some g → g ≤ m.generation
  unmarked : m.premarkedSingular = false

/-- What a block remembers is timely, and so is what its accepted outer step does. -/
structure Session.Timely (s : Session α σ n) : Prop where
  memory : s.work.toMemory.Timely
  accepted : ∀ c, s.work.accepted = some c → c.memory.Timely

/-- What decides whether a session is timely. -/
def Session.dating (s : Session α σ n) :
    (Nat × Option Nat) × Bool × Option (Checkpoint α n) :=
  ((s.work.generation, s.work.factoredGeneration), s.work.premarkedSingular, s.work.accepted)

omit [Scalar α] in
theorem Session.Timely.of_dating (h : s.Timely) (hst : t.dating = s.dating) : t.Timely := by
  have hgeneration : t.work.generation = s.work.generation := congrArg (fun p => p.1.1) hst
  have hfactored : t.work.factoredGeneration = s.work.factoredGeneration :=
    congrArg (fun p => p.1.2) hst
  have hmark : t.work.premarkedSingular = s.work.premarkedSingular := congrArg (fun p => p.2.1) hst
  have haccepted : t.work.accepted = s.work.accepted := congrArg (fun p => p.2.2) hst
  refine ⟨⟨?_, hmark.trans h.memory.unmarked⟩, ?_⟩
  · rw [hgeneration, hfactored]
    exact h.memory.dated
  · rw [haccepted]
    exact h.accepted

omit [Scalar α] in
theorem Session.Timely.dated (h : s.Timely) : s.dated.Timely := by
  refine ⟨⟨fun g hg => ?_, h.memory.unmarked⟩, h.accepted⟩
  cases hg
  exact Nat.le_refl _

/-- The action leaves a timely session timely. -/
def Punctual {β : Type} (a : Action α σ n β) : Prop := Follows (fun s t => s.Timely → t.Timely) a

namespace Punctual
variable {β γ : Type}

omit [Scalar α] in
theorem bind {a : Action α σ n β} {f : β → Action α σ n γ} (ha : Punctual a)
    (hf : ∀ v, Punctual (f v)) : Punctual (a >>= f) :=
  Follows.bind (fun _ _ _ hst htu hs => htu (hst hs)) ha hf

omit [Scalar α] in
theorem value (v : β) : Punctual (pure v : Action α σ n β) := fun _ => id

omit [Scalar α] in
theorem read {f : Session α σ n → Action α σ n β} (hf : ∀ s, Punctual (f s)) :
    Punctual (get >>= f) := fun s => hf s s

omit [Scalar α] in
theorem change {g : Session α σ n → Session α σ n} (h : ∀ s, (g s).dating = s.dating) :
    Punctual (modify g : Action α σ n Unit) := fun s hs => hs.of_dating (h s)

end Punctual

/-- Whatever leaves the dates alone is punctual. -/
theorem closed_punctual (P : Problem α σ n) (past : Bool) :
    Closed P past Session.dating fun _ a => Punctual a :=
  have hC : Closed P past Session.dating fun _ a =>
      Follows (fun s t => t.dating = s.dating) a :=
    closed_still P past (fun _ _ _ _ _ _ => rfl) fun _ _ _ => rfl
  have punctual : ∀ {β : Type} {a : Action α σ n β},
      Follows (fun s t => t.dating = s.dating) a → Punctual a := fun ha s =>
    (ha s).mono (fun _ _ _ h hs => hs.of_dating h) fun _ _ _ h hs => hs.of_dating h
  { value := Punctual.value
    seq := Punctual.bind
    read := fun _ hf => .read hf
    residualNominals := fun _ hf => .read hf
    update := fun hg => .change hg.keeps
    notice := fun notice => punctual (hC.notice notice)
    residual := fun x => punctual (hC.residual x)
    written := fun _ _ _ _ hstore s => hstore _ s
    jacobian := fun jacobian hj x A => punctual (hC.jacobian jacobian hj x A)
    directional := fun derivative hd x direction =>
      punctual (hC.directional derivative hd x direction)
    auxiliary := fun x => punctual (hC.auxiliary x)
    limit := fun x step => punctual (hC.limit x step) }

/-! ## The two ways to factor -/

/-- A factorization was stored, or none where there is no usable one. -/
structure Stored (s t : Session α σ n) (usable : Bool) : Prop where
  akin : Akin s t
  dating : t.dating = s.dating
  present : usable = t.work.factorization.isPresent

omit [Scalar α] in
theorem Stored.timely {usable : Bool} (h : Stored s.dated t usable) (hs : s.Timely) : t.Timely :=
  hs.dated.of_dating h.dating

/-- What is stored is what the direct method makes of the Jacobian, or stands in for that where the
Jacobian is singular. -/
def Substituted (s t : Session α σ n) : Prop :=
  t.work.factorization = directFactors s.work.jacobian ∨
    (t.work.factorization.standsIn = true ∧ ∃ refusal, LU.factor s.work.jacobian = .error refusal)

theorem standIn_substituted {mode : RecoveryMode} {refusal : Refusal α}
    (h : LU.factor s.work.jacobian = .error refusal)
    (hfactors : t.work.factorization = (standIn mode s.work).factorization) : Substituted s t := by
  unfold Substituted
  rw [hfactors, directFactors_of_error h]
  by_cases hn : n = 1
  · rw [standIn_alone hn]
    exact .inr ⟨rfl, refusal, h⟩
  · obtain ⟨lu, _, e⟩ | e := standIn_cases hn mode s.work
    · rw [e]
      exact .inr ⟨rfl, refusal, h⟩
    · rw [e]
      exact .inl rfl

/-- A Jacobian that was not marked beforehand is factored as the direct method would do it, or
substituted where it is singular. -/
theorem factorize_stored (hs : s.work.premarkedSingular = false) :
    After factorize s (fun usable t => Stored s.dated t usable ∧ Substituted s t)
      fun _ _ => False := by
  have hdating : s.dated.dating =
      ((s.work.generation, some s.work.generation), false, s.work.accepted) :=
    congrArg (fun marked => ((s.work.generation, some s.work.generation), marked, s.work.accepted)) hs
  unfold After
  obtain ⟨_, lu, hfactor, hrun⟩ | ⟨hmarked | ⟨refusal, hfactor⟩, notices, hrun⟩ := factorize_cases s
  · rw [hrun]
    refine ⟨⟨rfl, hdating.symm, rfl⟩, .inl ?_⟩
    unfold directFactors
    rw [hfactor]
    rfl
  · rw [hs] at hmarked
    cases hmarked
  · rw [hrun]
    exact ⟨⟨rfl, hdating.symm, rfl⟩, standIn_substituted hfactor rfl⟩

theorem factorDirect_stored (s : Session α σ n) :
    After factorDirect s (fun usable t => Stored s.dated t usable ∧
      t.work.factorization = directFactors s.work.jacobian) fun _ _ => False := by
  obtain ⟨_, _, hrun⟩ := factorDirect_run s
  unfold After
  rw [hrun]
  exact ⟨⟨rfl, rfl, rfl⟩, rfl⟩

/-! ## Linear blocks between their operations -/

theorem Approached.dating (h : Approached P s t) : t.dating = s.dating := by
  obtain ⟨hwork, _⟩ := Prod.mk.inj h.course.keeps
  unfold Session.dating
  rw [hwork]

namespace Punctual

theorem prepareUnknowns (P : Problem α σ n) : Punctual (prepareUnknowns P) := fun s =>
  (approached_prepareUnknowns P s).mono (fun _ _ _ h hs => hs.of_dating h.dating)
    fun _ _ _ h hs => hs.of_dating h.dating

theorem prelude (P : Problem α σ n) : Punctual (prelude P) := fun s =>
  (approached_prelude P s).mono (fun _ _ _ h hs => hs.of_dating h.dating)
    fun _ _ _ h hs => hs.of_dating h.dating

theorem setUp (P : Problem α σ n) : Punctual (setUp P) := fun _ =>
  after_setUp (fun _ => id) fun _ hs => hs.of_dating rfl

theorem setPointAction (P : Problem α σ n) (x : Array α) : Punctual (setPointAction P x) :=
  follows_setPointAction (fun _ => id) (fun _ _ _ hst htu hs => htu (hst hs)) (prepareUnknowns P)
    (fun _ _ hs => hs.of_dating rfl) x

theorem evaluateJacobian (P : Problem α σ n) (x f : Vector α n) :
    Punctual (evaluateJacobian P x f) := by
  refine (closed_punctual P true).evaluateJacobian_of (fun A => change fun _ => rfl)
    (change fun _ => rfl) (fun s hs => ?_) (fun _ tolerance J D i j => ?_) x f
  · exact ⟨⟨fun g hg => Nat.le_succ_of_le (hs.memory.dated g hg), hs.memory.unmarked⟩, hs.accepted⟩
  · unfold compareEntry
    split
    · exact bind (change fun _ => rfl) fun _ => change fun _ => rfl
    · exact value _

theorem prepareJacobian (P : Problem α σ n) (iteration : Nat) (x f : Vector α n) :
    Punctual (prepareJacobian P iteration x f) := by
  refine read fun s => ?_
  split
  · exact value _
  · refine bind (evaluateJacobian P x f) fun answer => ?_
    cases answer with
    | ok _ => exact value _
    | error _ => exact value _
  · exact bind (change fun _ => rfl) fun _ => value _
  · refine bind (fun t ht => ?_) fun _ => value _
    exact ⟨⟨fun g hg => Nat.le_succ_of_le (ht.memory.dated g hg), ht.memory.unmarked⟩, ht.accepted⟩

theorem factorize : Punctual (factorize : Action α σ n Bool) := by
  intro s
  by_cases hs : s.Timely
  · exact (factorize_stored hs.memory.unmarked).mono (fun _ _ _ h _ => h.1.timely hs)
      fun _ _ _ h => h.elim
  · exact (factorize_after s).mono (fun _ _ _ _ h => absurd h hs) fun _ _ _ h => h.elim

theorem factorDirect : Punctual (factorDirect : Action α σ n Bool) := fun s =>
  (factorDirect_stored s).mono (fun _ _ _ h hs => h.1.timely hs) fun _ _ _ h => h.elim

omit [Scalar α] in
theorem secureFactors {factor : Action α σ n Bool} (h : Punctual factor) :
    Punctual (secureFactors factor) := by
  refine read fun s => ?_
  split
  · exact value _
  · exact h

theorem moveDirectly (P : Problem α σ n) (tol : Tolerances α) (x : Vector α n) (initialNorm : α)
    (step : Vector α n) (kind : StepKind) :
    Punctual (moveDirectly P tol x initialNorm step kind) := by
  refine read fun s => bind ((closed_punctual P true).residual _) fun answer => ?_
  cases answer with
  | error _ => exact value _
  | ok g => exact bind (change fun _ => rfl) fun _ => read fun _ => value _

theorem runDirect (P : Problem α σ n) (tol : Tolerances α) : Punctual (runDirect P tol) := by
  rw [runDirect_eq]
  refine read fun s => bind ((closed_punctual P true).residual _) fun answer => ?_
  cases answer with
  | error _ => exact value _
  | ok f =>
    refine read fun t => bind (prepareJacobian P 1 s.x f) fun status => ?_
    cases status with
    | error _ => exact value _
    | ok _ =>
      refine bind (secureFactors factorDirect) fun usable => read fun u => ?_
      dsimp only
      split
      · exact value _
      · exact moveDirectly P tol s.x _ _ _

omit [Scalar α] in
theorem closeSolve (P : Problem α σ n) (standing : Standing α) :
    Punctual (closeSolve P standing) := by
  have hwrite : Punctual (writeBack P) := follows_writeBack fun _ hs => hs.of_dating rfl
  refine bind hwrite fun _ => ?_
  split
  · exact bind (change fun _ => rfl) fun _ => read fun _ => value _
  · exact bind (change fun _ => rfl) fun _ => bind (change fun _ => rfl) fun _ => fun _ => id

theorem solveAction (hmethod : P.options.method = .direct) : Punctual (solveAction P) := by
  rw [solveAction_eq]
  refine bind (prelude P) fun _ s => ?_
  rw [after_thenAlways]
  have hsolve : Punctual (solveByMethod P) := by
    unfold solveByMethod
    rw [hmethod]
    refine bind (bind (setUp P) fun _ => value _) fun _ => bind (change fun _ => rfl) fun _ => ?_
    exact bind (runDirect P _) fun attempt => closeSolve P _
  exact (hsolve s).mono (fun _ _ _ h hs => (h hs).of_dating rfl)
    fun _ _ _ h hs => (h hs).of_dating rfl

theorem freshJacobian (P : Problem α σ n) : Punctual (freshJacobian P) :=
  bind (prepareUnknowns P) fun _ => (closed_punctual P true).startedJacobian (setUp P)
    (change fun _ => rfl) (evaluateJacobian P) fun _ _ => id

end Punctual

theorem Session.Timely.of_fresh (h : s.work = Workspace.fresh n) : s.Timely := by
  have haccepted : s.work.accepted = none := congrArg (fun w => w.accepted) h
  refine ⟨?_, fun c hc => ?_⟩
  · rw [h]
    exact ⟨nofun, rfl⟩
  · rw [haccepted] at hc
    cases hc

omit [Scalar α] in
theorem Session.Timely.rewound (h : s.Timely) {c : Checkpoint α n} (hc : c.memory.Timely) :
    (s.rewound c).Timely := ⟨hc, h.accepted⟩

theorem Block.timely_after {b : Block α σ n} (hb : b.session.Timely)
    (hmethod : b.problem.options.method = .direct) (operation : Operation α) :
    (b.after operation).session.Timely := by
  have timely : ∀ {β : Type} {action : Problem α σ n → Action α σ n β},
      Punctual (action b.problem) → (b.perform action).2.session.Timely := fun h =>
    Block.perform_session h hb
  have hfresh := Punctual.freshJacobian b.problem
  cases operation with
  | solve => exact timely (Punctual.solveAction hmethod)
  | setPoint x => exact timely (Punctual.setPointAction b.problem x)
  | evaluateJacobian => exact timely (hfresh.bind fun _ => .read fun _ => .value _)
  | factorizeJacobian =>
    refine timely (hfresh.bind fun _ => Punctual.factorize.bind fun usable => ?_)
    split
    · exact .read fun _ => .value _
    · exact fun _ => id
  | completedOuterStep =>
    refine ⟨hb.memory, fun c hc => ?_⟩
    cases hc
    exact hb.memory

/-- Whatever was asked of it, a linear block has no factorization newer than its Jacobian. -/
theorem Lived.timely {b : Block α σ n} {kept : List (Checkpoint α n)} (h : Lived b kept)
    (hmethod : b.problem.options.method = .direct) :
    b.session.Timely ∧ ∀ c ∈ kept, c.memory.Timely := by
  induction h with
  | create h =>
    obtain ⟨_, rfl⟩ := Block.create_eq_ok h
    exact ⟨.of_fresh rfl, List.forall_mem_nil _⟩
  | @after b kept operation _ ih =>
    rw [b.after_problem operation] at hmethod
    obtain ⟨hb, hkept⟩ := ih hmethod
    exact ⟨Block.timely_after hb hmethod operation, hkept⟩
  | notifyEvent _ ih => exact ⟨(ih hmethod).1.of_dating rfl, (ih hmethod).2⟩
  | modifyModel _ _ ih => exact ⟨(ih hmethod).1.of_dating rfl, (ih hmethod).2⟩
  | teardown _ ih => exact ⟨.of_fresh rfl, (ih hmethod).2⟩
  | checkpoint _ ih =>
    obtain ⟨hb, hkept⟩ := ih hmethod
    exact ⟨hb, List.forall_mem_cons.2 ⟨hb.memory, hkept⟩⟩
  | restore _ hc ih =>
    rw [Block.restore_eq] at hmethod ⊢
    obtain ⟨hb, hkept⟩ := ih hmethod
    exact ⟨hb.rewound (hkept _ hc), hkept⟩

/-! ## Actions that do not look at the factorization -/

/-- From sessions that differ in their factorization the action comes to the same, and leaves such
sessions. -/
def Oblivious {β : Type} (a : Action α σ n β) : Prop :=
  ∀ s t, Akin s t → Meets (fun v v' s' t' => v' = v ∧ Akin s' t') Akin (a s) (a t)

namespace Oblivious
variable {β γ : Type}

omit [Scalar α] in
theorem bind {a : Action α σ n β} {f : β → Action α σ n γ} (ha : Oblivious a)
    (hf : ∀ v, Oblivious (f v)) : Oblivious (a >>= f) := by
  intro s t h
  refine (ha s t h).bind fun v v' s' t' ⟨hv, h'⟩ => ?_
  subst hv
  exact hf v' s' t' h'

omit [Scalar α] in
theorem value (v : β) : Oblivious (pure v : Action α σ n β) := fun _ _ h => ⟨rfl, h⟩

omit [Scalar α] in
theorem fail (fault : Fault α) : Oblivious (fail fault : Action α σ n β) := fun _ _ h => ⟨rfl, h⟩

omit [Scalar α] in
theorem read {f : Session α σ n → Action α σ n β} (hf : ∀ s o k, f (s.refit o k) = f s)
    (h : ∀ s, Oblivious (f s)) : Oblivious (get >>= f) := by
  intro s t hst
  have e : f t = f s := by
    obtain ⟨o, k, rfl⟩ := hst.exists_refit
    exact hf s o k
  rw [get_bind_apply, get_bind_apply, e]
  exact h s s t hst

omit [Scalar α] in
theorem change {g : Session α σ n → Session α σ n} (h : ∀ s o k, Akin (g s) (g (s.refit o k))) :
    Oblivious (modify g : Action α σ n Unit) := by
  intro s t hst
  obtain ⟨o, k, rfl⟩ := hst.exists_refit
  exact ⟨rfl, h s o k⟩

omit [Scalar α] in
theorem request (request : Answer σ β) (record : Except EvalFailure β → Call α n) :
    Oblivious (ask request record) := by
  intro s t h
  obtain ⟨o, k, rfl⟩ := h.exists_refit
  exact ⟨rfl, rfl⟩

theorem evaluate (P : Problem α σ n) (x : Vector α n) : Oblivious (evaluate P x) := by
  refine bind (change fun _ _ _ => rfl) fun _ => bind (request _ _) fun answer => ?_
  refine bind ?_ fun answer => ?_
  · cases answer with
    | ok f => exact value _
    | error failure =>
      cases failure with
      | fatal reason => exact fail _
      | recoverable reason => exact value _
  · cases answer with
    | error _ => exact value _
    | ok f =>
      dsimp only
      split
      · exact bind (change fun _ _ _ => rfl) fun _ => value _
      · refine bind ?_ fun _ => value _
        unfold recordSample
        split
        · split
          · exact change fun _ _ _ => rfl
          · exact value _
        · exact value _

omit [Scalar α] in
theorem updateAuxiliary (P : Problem α σ n) (x : Vector α n) : Oblivious (updateAuxiliary P x) := by
  refine bind (request _ _) fun answer => ?_
  cases answer with
  | ok _ => exact value _
  | error failure =>
    cases failure with
    | fatal reason => exact fail _
    | recoverable reason => exact change fun _ _ _ => rfl

omit [Scalar α] in
theorem writeBack (P : Problem α σ n) : Oblivious (writeBack P) := by
  refine read (fun _ _ _ => rfl) fun s => bind (request _ _) fun answer => ?_
  cases answer with
  | ok _ => exact value _
  | error failure => cases failure <;> exact fail _

theorem setUp (P : Problem α σ n) : Oblivious (setUp P) := by
  intro s t h
  obtain ⟨o, k, rfl⟩ := h.exists_refit
  cases hs : s.work.ready with
  | true =>
    rw [setUp_ready P hs, setUp_ready P (s := s.refit o k) hs]
    exact ⟨rfl, rfl⟩
  | false =>
    rw [setUp_unready P hs, setUp_unready P (s := s.refit o k) hs]
    exact ⟨rfl, rfl⟩

theorem moveDirectly (P : Problem α σ n) (tol : Tolerances α) (x : Vector α n) (initialNorm : α)
    (step : Vector α n) (kind : StepKind) :
    Oblivious (moveDirectly P tol x initialNorm step kind) := by
  refine read (fun _ _ _ => rfl) fun r => ?_
  refine bind (evaluate P _) fun answer => ?_
  cases answer with
  | error _ => exact value _
  | ok g => exact bind (change fun _ _ _ => rfl) fun _ => read (fun _ _ _ => rfl) fun _ => value _

omit [Scalar α] in
theorem closeSolve (P : Problem α σ n) (standing : Standing α) :
    Oblivious (closeSolve P standing) := by
  refine bind (writeBack P) fun _ => ?_
  split
  · exact bind (change fun _ _ _ => rfl) fun _ => read (fun _ _ _ => rfl) fun _ => value _
  · exact bind (change fun _ _ _ => rfl) fun _ => bind (change fun _ _ _ => rfl) fun _ => fail _

end Oblivious

/-- What a solve of a started block does before its method. -/
theorem prelude_oblivious (hs : s.phase ≠ .untouched) (h : Akin s t) :
    Meets (fun v v' s' t' => v' = v ∧ Akin s' t') Akin (prelude P s) (prelude P t) := by
  obtain ⟨o, k, rfl⟩ := h.exists_refit
  rw [prelude_started P s hs, prelude_started P (s.refit o k) hs]
  change Meets _ _ _ ((if s.atEvent ∧ P.auxiliaryCount > 0 then
    updateAuxiliary P (startingPoint P s) else pure ()) ((s.begun P).refit o k))
  split
  · exact Oblivious.updateAuxiliary P _ _ _ rfl
  · exact ⟨rfl, rfl⟩

/-! ## Two direct solves side by side -/

/-- Two sessions that differ in their factorization, both with a Jacobian about which nothing needs
to be done, and with no factorization that the direct method would not make of it. -/
structure Paired (s t : Session α σ n) : Prop where
  akin : Akin s t
  ready : s.Ready
  left : s.Direct
  right : t.Direct

theorem Meets.paired {β : Type} {a : Action α σ n β}
    (ha : Meets (fun v v' s' t' => v' = v ∧ Akin s' t') Akin (a s) (a t))
    (hstock : Follows (fun s t => t.stock = s.stock) a) (h : Paired s t) :
    Meets (fun v v' s' t' => v' = v ∧ Paired s' t') Akin (a s) (a t) := by
  obtain ⟨v, v', s', t', hs, ht, hv, hst⟩ | ⟨halt, s', t', hs, ht, hst⟩ := ha.ends
  · rw [hs, ht]
    have hs' := hstock.ok hs
    exact ⟨hv, hst, h.ready.of_stock hs', h.left.of_stock hs', h.right.of_stock (hstock.ok ht)⟩
  · rw [hs, ht]
    exact ⟨rfl, hst⟩

theorem setUp_stock (P : Problem α σ n) : Follows (fun s t => t.stock = s.stock) (setUp P) :=
  fun _ => after_setUp (fun _ => rfl) fun _ => rfl

/-- A Jacobian about which nothing needs to be done is taken as it is. -/
theorem prepareJacobian_ready (hs : s.Ready) (iteration : Nat) (x f : Vector α n) :
    prepareJacobian P iteration x f s = .ok (.ok true) s := by
  have hrun := prepareJacobian_after P iteration x f s
  unfold After at hrun
  cases h : prepareJacobian P iteration x f s with
  | error halt t =>
    rw [h] at hrun
    exact absurd hs hrun.1
  | ok answer t =>
    rw [h] at hrun
    match answer, hrun with
    | .ok true, hrun =>
      obtain ⟨_, rfl⟩ | ⟨hnot, _⟩ := hrun
      · rfl
      · exact absurd hs hnot
    | .ok false, hrun =>
      have helsewhere := hrun.1.elsewhere
      rw [hs.atPoint] at helsewhere
      cases helsewhere
    | .error _, hrun => exact absurd hs hrun.1

theorem secureFactors_stored (hs : s.Direct) :
    After (secureFactors factorDirect) s (fun usable t => Akin s t ∧
      usable = t.work.factorization.isPresent ∧
      t.work.factorization = directFactors s.work.jacobian) fun _ _ => False := by
  cases hfactored : s.work.isFactored with
  | true =>
    rw [after_congr (secureFactors_kept hfactored)]
    exact ⟨Akin.refl s, (isFactored_iff.1 hfactored).2.symm, hs hfactored⟩
  | false =>
    rw [after_congr (secureFactors_due hfactored)]
    exact (factorDirect_stored s).mono
      (fun _ _ _ ⟨hstored, hfactors⟩ => ⟨hstored.akin, hstored.present, hfactors⟩) fun _ _ _ h => h

/-- A store without a usable factorization gives no step. -/
theorem directStep?_present {w : Workspace α n} {usable : Bool}
    (h : usable = w.factorization.isPresent) (f : Vector α n) :
    (if usable then directStep? w f else none) = directStep? w f := by
  cases usable with
  | true => rfl
  | false =>
    unfold directStep?
    cases hfactors : w.factorization with
    | none => rfl
    | _ =>
      rw [hfactors] at h
      cases h

theorem stepDirectly_akin {tol : Tolerances α} {x f : Vector α n} {norm : α} {usable usable' : Bool}
    (h : Akin s t) (hs : usable = s.work.factorization.isPresent)
    (ht : usable' = t.work.factorization.isPresent)
    (hfactors : t.work.factorization = s.work.factorization) :
    Meets (fun v v' s' t' => v' = v ∧ Akin s' t') Akin (stepDirectly P tol x f norm usable s)
      (stepDirectly P tol x f norm usable' t) := by
  have hstep : directStep? t.work f = directStep? s.work f := by
    unfold directStep?
    rw [hfactors]
  unfold stepDirectly
  rw [get_bind_apply, get_bind_apply]
  dsimp only
  rw [directStep?_present hs, directStep?_present ht, hstep]
  cases directStep? s.work f with
  | none => exact ⟨rfl, h⟩
  | some found => exact Oblivious.moveDirectly P tol x norm found.1 found.2 s t h

theorem secureFactors_paired (h : Paired s t) :
    Meets (fun usable usable' s' t' => Akin s' t' ∧ usable = s'.work.factorization.isPresent ∧
      usable' = t'.work.factorization.isPresent ∧
      t'.work.factorization = s'.work.factorization) Akin
      (secureFactors factorDirect s) (secureFactors factorDirect t) := by
  have hjacobian : t.work.jacobian = s.work.jacobian := by
    obtain ⟨o, k, rfl⟩ := h.akin.exists_refit
    rfl
  obtain ⟨usable, s', hs, hakin, hpresent, hfactors⟩ := (secureFactors_stored h.left).exists_ok
  obtain ⟨usable', t', ht, hakin', hpresent', hfactors'⟩ := (secureFactors_stored h.right).exists_ok
  rw [hjacobian] at hfactors'
  rw [hs, ht]
  exact ⟨(hakin.symm.trans h.akin).trans hakin', hpresent, hpresent', hfactors'.trans hfactors.symm⟩

theorem runDirect_paired (tol : Tolerances α) (h : Paired s t) :
    Meets (fun v v' s' t' => v' = v ∧ Akin s' t') Akin (runDirect P tol s) (runDirect P tol t) := by
  have hx : t.x = s.x := by
    obtain ⟨o, k, rfl⟩ := h.akin.exists_refit
    rfl
  rw [runDirect_eq, get_bind_apply, get_bind_apply, hx]
  have hevaluate := (Oblivious.evaluate P s.x s t h.akin).paired ((closed_stock P).residual s.x) h
  refine hevaluate.bind fun answer answer' u u' ⟨hanswer, hu⟩ => ?_
  subst hanswer
  cases answer' with
  | error _ => exact ⟨rfl, hu.akin⟩
  | ok f =>
    have hscale : u'.work.residualScale = u.work.residualScale := by
      obtain ⟨o, k, rfl⟩ := hu.akin.exists_refit
      rfl
    dsimp only
    -- Neither run evaluates the Jacobian again, so that they part at its factorization only.
    rw [get_bind_apply, get_bind_apply, hscale,
      bind_ok (prepareJacobian_ready hu.ready 1 s.x f),
      bind_ok (prepareJacobian_ready (hu.akin.ready hu.ready) 1 s.x f)]
    exact (secureFactors_paired hu).bind fun _ _ v v' ⟨hv, hpresent, hpresent', hfactors⟩ =>
      stepDirectly_akin hv hpresent hpresent' hfactors

/-- Direct solves that differ in a factorization which the direct method would have made come to the
same. -/
theorem solveAction_paired (hmethod : P.options.method = .direct) (hs : s.phase ≠ .untouched)
    (h : Paired s t) :
    Meets (fun v v' s' t' => v' = v ∧ Akin s' t') Akin (solveAction P s) (solveAction P t) := by
  have hstock : Follows (fun s t => t.stock = s.stock) (prelude P) := fun s =>
    (approached_prelude P s).mono (fun _ _ _ h => h.shift.stock) fun _ _ _ h => h.shift.stock
  rw [solveAction_eq]
  refine ((prelude_oblivious hs h.akin).paired hstock h).bind fun _ _ u u' ⟨_, hu⟩ => ?_
  have hsolve : Meets (fun v v' s' t' => v' = v ∧ Akin s' t') Akin (solveByMethod P u)
      (solveByMethod P u') := by
    unfold solveByMethod
    rw [hmethod]
    dsimp only
    unfold solveDirect solveOnce
    have hsetUp : Meets (fun (_ _ : Unit) => Paired) Akin (discard (setUp P) u)
        (discard (setUp P) u') :=
      ((Oblivious.setUp P u u' hu.akin).paired (setUp_stock P) hu).bind fun _ _ _ _ h => h.2
    refine hsetUp.bind fun _ _ v v' hv => ?_
    rw [modify_bind_apply, modify_bind_apply]
    have hphase : Paired { v with phase := .iterating } { v' with phase := .iterating } := by
      refine ⟨?_, hv.ready.of_stock rfl, hv.left.of_stock rfl, hv.right.of_stock rfl⟩
      obtain ⟨o, k, rfl⟩ := hv.akin.exists_refit
      rfl
    refine (runDirect_paired _ hphase).bind fun attempt attempt' w w' ⟨hattempt, hw⟩ => ?_
    subst hattempt
    exact Oblivious.closeSolve P _ w w' hw
  unfold thenAlways
  have unmarked : ∀ {v v' : Session α σ n}, Akin v v' → Akin v.unmarked v'.unmarked := by
    intro v v' h
    obtain ⟨o, k, rfl⟩ := h.exists_refit
    rfl
  obtain ⟨r, r', v, v', hv, hv', hr, hvv⟩ | ⟨halt, v, v', hv, hv', hvv⟩ := hsolve.ends
  · rw [hv, hv']
    exact ⟨hr, unmarked hvv⟩
  · rw [hv, hv']
    exact ⟨rfl, unmarked hvv⟩

/-! ## After an inspection -/

/-- An evaluation that is asked for leaves a Jacobian about which nothing needs to be done, and that
is not factored. -/
theorem startedJacobian_leaves (hs : s.Timely) :
    After (startedJacobian P) s (fun _ t => t.Ready ∧ t.work.isFactored = false)
      fun _ _ => True := by
  have timely : ∀ {β : Type} {a : Action α σ n β}, Punctual a → ∀ {s : Session α σ n}, s.Timely →
      After a s (fun _ t => t.Timely) fun _ _ => True := fun ha s hs =>
    (ha s).mono (fun _ _ _ h => h hs) fun _ _ _ _ => trivial
  have hsetUp : Punctual (discard (setUp P)) := .bind (Punctual.setUp P) fun _ => .value _
  refine (timely hsetUp hs).bind fun _ t ht => ?_
  rw [after_congr (get_bind_apply _ _)]
  refine (timely ((closed_punctual P true).residual t.x) ht).bind fun answer u hu => ?_
  cases answer with
  | error _ => trivial
  | ok f =>
    dsimp only
    rw [after_congr (modifyWork_bind_apply _ _ _)]
    have hpressed : u.pressed.Timely := hu.of_dating rfl
    refine After.bind (R := fun status v => status = .ok () →
      v.Ready ∧ v.work.isFactored = false) ?_ fun status v hv => ?_
    · refine (evaluateJacobian_after P t.x f u.pressed).mono (fun status v _ hmarks => ?_)
        fun _ _ _ _ => trivial
      rintro rfl
      obtain ⟨hmarks, _⟩ := hmarks
      have hgeneration : v.work.generation = u.work.generation + 1 :=
        congrArg Marks.generation hmarks
      have hfactored : v.work.factoredGeneration = u.work.factoredGeneration :=
        congrArg Marks.factoredGeneration hmarks
      refine ⟨⟨congrArg Marks.current hmarks, congrArg Marks.atPoint hmarks,
        congrArg Marks.forced hmarks⟩, ?_⟩
      -- The generation went up, and no factorization was ahead of it.
      have hne : v.work.factoredGeneration ≠ some v.work.generation := by
        rw [hfactored, hgeneration]
        intro h
        exact Nat.not_succ_le_self _ (hu.memory.dated _ h)
      unfold Workspace.isFactored
      rw [beq_false_of_ne hne, Bool.false_and]
    · cases status with
      | error _ => trivial
      | ok _ => exact hv rfl

theorem freshJacobian_leaves (hs : s.Timely) :
    After (freshJacobian P) s
      (fun _ t => t.Timely ∧ t.phase ≠ .untouched ∧ t.Ready ∧ t.work.isFactored = false)
      fun _ _ => True := by
  have hbegun := (prepareUnknowns_started P s).mono
    (fun _ t hrun ht => (⟨ht, (Punctual.prepareUnknowns P).ok hrun hs⟩ :
      t.phase ≠ .untouched ∧ t.Timely)) fun _ _ _ _ => True.intro
  have hphase : Follows (Drift P fun _ => ()) (startedJacobian P) :=
    (routine_drift P fun _ => ()).startedJacobian
  have hfresh : After (freshJacobian P) s
      (fun _ t => t.phase ≠ .untouched ∧ t.Ready ∧ t.work.isFactored = false) fun _ _ => True := by
    rw [freshJacobian_eq]
    exact hbegun.bind fun _ t ⟨hstarted, ht⟩ => (startedJacobian_leaves ht).mono
      (fun _ u hrun hu => ⟨(hphase.ok hrun).onward.phase hstarted, hu⟩) fun _ _ _ h => h
  exact hfresh.mono (fun _ t hrun ht => ⟨(Punctual.freshJacobian P).ok hrun hs, ht⟩)
    fun _ _ _ h => h

/-- The factorization in the store belongs to the Jacobian, but stands in for one of it. -/
structure Session.Replaced (s : Session α σ n) : Prop where
  ready : s.Ready
  factored : s.work.isFactored = true
  standsIn : s.work.factorization.standsIn = true

omit [Scalar α] in
theorem Session.Replaced.of_stock (h : s.Replaced) (hst : t.stock = s.stock) : t.Replaced := by
  obtain ⟨hfactored, hfactorization⟩ := factors_of_stock hst
  exact ⟨h.ready.of_stock hst, hfactored.trans h.factored, by rw [hfactorization]; exact h.standsIn⟩

/-- The halt is not a verdict on the attempts, or the verdict is that there was no linear system to
solve or no way to solve it. -/
def Halt.Unsolvable (halt : Halt α) : Prop :=
  ∀ details, halt = .fault (.unconverged details) →
    details.reason = .linearSolve ∨ details.reason = .initialEvaluation

theorem runDirect_replaced (tol : Tolerances α) (hs : s.Replaced) :
    After (runDirect P tol) s (fun attempt _ => attempt.failure = some .linearSolve ∨
      attempt.failure = some .initialEvaluation) fun halt _ => halt.Unsolvable := by
  have hevaluate : After (evaluate P s.x) s (fun _ t => t.Replaced)
      fun halt _ => halt.Unsolvable := by
    exact after_evaluate (fun _ _ _ => nofun) (fun _ _ => hs.of_stock rfl)
      (fun _ _ _ _ => hs.of_stock rfl) fun _ _ _ => hs.of_stock rfl
  rw [runDirect_eq, after_congr (get_bind_apply _ _)]
  refine hevaluate.bind fun answer t ht => ?_
  cases answer with
  | error _ => exact .inr rfl
  | ok f =>
    have hsecure : secureFactors factorDirect t = .ok true t := secureFactors_kept ht.factored
    have hstep : directStep? t.work f = none := by
      have hstandsIn := ht.standsIn
      unfold directStep?
      cases hfactors : t.work.factorization with
      | regularized _ => rfl
      | scalar => rfl
      | _ =>
        rw [hfactors] at hstandsIn
        cases hstandsIn
    dsimp only
    rw [after_congr (get_bind_apply _ _),
      after_congr (bind_ok (prepareJacobian_ready ht.ready 1 s.x f))]
    dsimp only
    rw [after_congr (bind_ok hsecure)]
    unfold stepDirectly
    rw [after_congr (get_bind_apply _ _)]
    dsimp only
    rw [if_pos rfl, hstep]
    exact .inl rfl

omit [Scalar α] in
theorem closeSolve_failed {standing : Standing α} {reason : FailureReason}
    (h : standing.attempt.failure = some reason) (s : Session α σ n) :
    After (closeSolve P standing) s (fun _ _ => False)
      fun halt _ => ∀ details, halt = .fault (.unconverged details) → details.reason = reason := by
  unfold closeSolve
  rw [h]
  refine After.bind (R := fun _ _ => True) ?_ fun _ t _ => ?_
  · exact after_writeBack (fun _ _ _ => nofun) (fun _ _ _ => nofun) fun _ => trivial
  · intro details hdetails
    cases hdetails
    rfl

/-- A direct solve that finds what stands in for a factorization fails. -/
theorem solveAction_replaced (hmethod : P.options.method = .direct) (hs : s.Replaced) :
    After (solveAction P) s (fun _ _ => False) fun halt _ => halt.Unsolvable := by
  rw [solveAction_eq]
  have hprelude := (prelude_leaves_started P s).mono
    (fun _ t hrun _ => hs.of_stock ((approached_prelude P).ok hrun).shift.stock)
    fun halt _ _ h => (fun details hdetails => absurd hdetails (h details) : halt.Unsolvable)
  refine hprelude.bind fun _ t ht => ?_
  rw [after_thenAlways]
  unfold solveByMethod
  rw [hmethod]
  have hsetUp : After (discard (setUp P)) t (fun _ u => u.Replaced) fun _ _ => False := by
    have hset : After (setUp P) t (fun _ u => u.Replaced) fun _ _ => False :=
      after_setUp (fun _ => ht) fun _ => ht.of_stock rfl
    exact hset.bind fun _ _ h => h
  refine (hsetUp.mono (fun _ _ _ h => h) fun _ _ _ h => h.elim).bind fun _ u hu => ?_
  rw [after_congr (modify_bind_apply _ _ _)]
  have hphase : ({ u with phase := .iterating } : Session α σ n).Replaced := hu.of_stock rfl
  refine (runDirect_replaced _ hphase).bind fun attempt v hattempt => ?_
  obtain hfailure | hfailure := hattempt
  · exact (closeSolve_failed hfailure v).mono (fun _ _ _ h => h)
      fun _ _ _ h details hdetails => .inl (h details hdetails)
  · exact (closeSolve_failed hfailure v).mono (fun _ _ _ h => h)
      fun _ _ _ h details hdetails => .inr (h details hdetails)

/-- A factorization that is asked for right after the Jacobian was evaluated leaves the session as
the evaluation did, unless something stands in for a singular Jacobian now. -/
theorem factorize_leaves (hs : s.Timely) (hready : s.Ready) (hfresh : s.work.isFactored = false) :
    After factorize s (fun usable t => usable = t.work.factorization.isPresent ∧
      Substituted s t ∧ (t.work.factorization.standsIn = false → Paired s t) ∧
      (t.work.factorization.standsIn = true → t.Replaced)) fun _ _ => False := by
  refine (factorize_stored hs.memory.unmarked).mono
    (fun usable t _ ⟨hstored, hsubstituted⟩ => ?_) fun _ _ _ h => h
  have hakin : Akin s t := (show Akin s s.dated from rfl).trans hstored.akin
  have hjacobian : t.work.jacobian = s.work.jacobian := by
    obtain ⟨o, k, rfl⟩ := hakin.exists_refit
    rfl
  refine ⟨hstored.present, hsubstituted, fun hown => ?_, fun hreplaced => ?_⟩
  · refine ⟨hakin, hready, fun h => ?_, fun _ => ?_⟩
    · rw [hfresh] at h
      cases h
    · obtain hfactors | ⟨hreplaced, _⟩ := hsubstituted
      · rw [hfactors, hjacobian]
      · rw [hown] at hreplaced
        cases hreplaced
  · refine ⟨hakin.ready hready, ?_, hreplaced⟩
    have hgeneration : t.work.generation = s.work.generation :=
      congrArg (fun p => p.1.1) hstored.dating
    have hfactored : t.work.factoredGeneration = some s.work.generation :=
      congrArg (fun p => p.1.2) hstored.dating
    have hpresent : t.work.factorization.isPresent = true := by
      cases hfactors : t.work.factorization with
      | none =>
        rw [hfactors] at hreplaced
        cases hreplaced
      | _ => rfl
    unfold Workspace.isFactored
    rw [hfactored, hgeneration, hpresent, beq_self_eq_true, Bool.and_true]

theorem Block.evaluateJacobian_of_ok {b : Block α σ n}
    (h : freshJacobian b.problem b.session = .ok () s) :
    b.evaluateJacobian = (.ok s.work.jacobian, { b with session := s }) :=
  Block.perform_ok (bind_ok h)

theorem Block.factorizeJacobian_of_ok {b : Block α σ n} {usable : Bool}
    (h : freshJacobian b.problem b.session = .ok () s) (hfactorize : factorize s = .ok usable t) :
    b.factorizeJacobian =
      (if usable then .ok t.work.factorization else .error (.fault .notFactored),
        { b with session := t }) := by
  have hrun : factorizeAction b.problem b.session =
      (if usable then pure t.work.factorization else fail .notFactored : Action α σ n _) t := by
    refine (bind_ok h).trans ((bind_ok hfactorize).trans ?_)
    cases usable <;> rfl
  cases usable with
  | true => exact Block.perform_ok hrun
  | false => exact Block.perform_error hrun

theorem Block.inspections_of_error {b : Block α σ n} {halt : Halt α}
    (h : freshJacobian b.problem b.session = .error halt s) :
    b.evaluateJacobian = (.error halt, { b with session := s }) ∧
      b.factorizeJacobian = (.error halt, { b with session := s }) :=
  ⟨Block.perform_error (bind_error h), Block.perform_error (bind_error h)⟩

theorem Block.solve_paired {b : Block α σ n} (hmethod : b.problem.options.method = .direct)
    (hs : s.phase ≠ .untouched) (h : Paired s t) :
    ({ b with session := t } : Block α σ n).solve.1 =
        ({ b with session := s } : Block α σ n).solve.1 ∧
      ({ b with session := t } : Block α σ n).solve.2.session.x =
        ({ b with session := s } : Block α σ n).solve.2.session.x := by
  have hsame : ∀ {u v : Session α σ n}, Akin u v → v.x = u.x := by
    intro u v huv
    obtain ⟨o, k, rfl⟩ := huv.exists_refit
    rfl
  unfold Block.solve
  obtain ⟨r, r', u, v, hu, hv, hr, huv⟩ | ⟨halt, u, v, hu, hv, huv⟩ :=
    (solveAction_paired hmethod hs h).ends
  · rw [Block.perform_ok (b := { b with session := s }) hu,
      Block.perform_ok (b := { b with session := t }) hv]
    exact ⟨congrArg Except.ok hr, hsame huv⟩
  · rw [Block.perform_error (b := { b with session := s }) hu,
      Block.perform_error (b := { b with session := t }) hv]
    exact ⟨rfl, hsame huv⟩

theorem Block.solve_replaced {b : Block α σ n} (hmethod : b.problem.options.method = .direct)
    (hb : b.session.Replaced) : ∃ halt, b.solve.1 = .error halt ∧ halt.Unsolvable := by
  have hsolve := solveAction_replaced (P := b.problem) hmethod hb
  exact Block.perform_ends (Q := fun r _ => ∃ halt, r = .error halt ∧ halt.Unsolvable)
    (hsolve.mono (fun _ _ _ h => h.elim) fun halt _ _ h => ⟨halt, rfl, h⟩)

/-- To ask a linear block for the factorization of its Jacobian right before a solve changes nothing
about the solve, compared with asking for the Jacobian, as long as the factorization is one of the
Jacobian. It is one whenever elimination succeeds. A solve cannot use what stands in for it, and
fails. -/
theorem solve_after_factorize {b : Block α σ n} {kept : List (Checkpoint α n)} (hb : Lived b kept)
    (hmethod : b.problem.options.method = .direct) :
    ((∀ F, b.factorizeJacobian.1 = .ok F → F.standsIn = false) →
        b.factorizeJacobian.2.solve.1 = b.evaluateJacobian.2.solve.1 ∧
          b.factorizeJacobian.2.solve.2.session.x = b.evaluateJacobian.2.solve.2.session.x) ∧
      (∀ F, b.factorizeJacobian.1 = .ok F → F.standsIn = true →
        ∃ halt, b.factorizeJacobian.2.solve.1 = .error halt ∧ halt.Unsolvable) ∧
      ∀ J lu, b.evaluateJacobian.1 = .ok J → LU.factor J = .ok lu →
        b.factorizeJacobian.1 = .ok (.lu lu) := by
  have hleaves := freshJacobian_leaves (P := b.problem) (hb.timely hmethod).1
  unfold After at hleaves
  cases hfresh : freshJacobian b.problem b.session with
  | error halt s =>
    -- Without a Jacobian both inspections end at the same point of the same run.
    obtain ⟨hevaluate, hfactorize⟩ := Block.inspections_of_error hfresh
    rw [hevaluate, hfactorize]
    exact ⟨fun _ => ⟨rfl, rfl⟩, fun _ => nofun, fun _ _ => nofun⟩
  | ok _ s =>
    rw [hfresh] at hleaves
    obtain ⟨htimely, hstarted, hready, hnot⟩ := hleaves
    have hfactors := factorize_leaves htimely hready hnot
    unfold After at hfactors
    cases hrun : factorize s with
    | error _ _ =>
      rw [hrun] at hfactors
      exact hfactors.elim
    | ok usable t =>
      rw [hrun] at hfactors
      obtain ⟨husable, hsubstituted, hpaired, hreplaced⟩ := hfactors
      rw [Block.evaluateJacobian_of_ok hfresh, Block.factorizeJacobian_of_ok hfresh hrun]
      dsimp only
      refine ⟨fun hown => Block.solve_paired hmethod hstarted (hpaired ?_),
        fun F hF hstandsIn => ?_, fun J lu hJ hlu => ?_⟩
      · cases hfactorization : t.work.factorization with
        -- Nothing was returned, and there is nothing in the store to be taken for a factorization.
        | none => rfl
        | _ =>
          refine hown _ ?_
          rw [husable, hfactorization]
          rfl
      · cases usable with
        | false => cases hF
        | true =>
          cases hF
          exact Block.solve_replaced hmethod (hreplaced hstandsIn)
      · cases hJ
        obtain hfactorization | ⟨_, refusal, hrefusal⟩ := hsubstituted
        · unfold directFactors at hfactorization
          rw [hlu] at hfactorization
          rw [husable, hfactorization]
          rfl
        · rw [hlu] at hrefusal
          cases hrefusal

/-- Whether the factorization that the block gives stands in for one of its Jacobian. -/
def Block.standsIn? (b : Block α σ n) : Option Bool :=
  b.factorizeJacobian.1.toOption.map Factorization.standsIn

end

/-! ## A block that an inspection breaks -/

/-- A linear block whose residual is zero everywhere. -/
def flatBlock : Block Float Unit 1 :=
  Block.pointwise { Options.standard with method := .direct } (.singleton 1)
    fun _ => .ok (.singleton 0)

set_option maxRecDepth 100000 in
/-- A block that solves after its Jacobian was evaluated, and does not after it was factored too. -/
theorem solve_after_factorize_flat :
    Lived flatBlock [] ∧ flatBlock.problem.options.method = .direct ∧
      (∃ report, flatBlock.evaluateJacobian.2.solve.1 = .ok report) ∧
      ∃ halt, flatBlock.factorizeJacobian.2.solve.1 = .error halt ∧ halt.Unsolvable := by
  have hlived : Lived flatBlock [] :=
    @Lived.create Float Unit _ 1 "loop" flatBlock.problem.model () flatBlock.problem.options 0
      .continuous flatBlock rfl
  have hsolved : flatBlock.evaluateJacobian.2.solvesTo (fun _ => true) = true := by decide +kernel
  have hreplaced : flatBlock.standsIn? = some true := by decide +kernel
  obtain ⟨report, _, hsolve, _⟩ := Block.exists_of_solvesTo hsolved
  obtain ⟨_, hfails, _⟩ := solve_after_factorize hlived rfl
  refine ⟨hlived, rfl, ⟨report, congrArg Prod.fst hsolve⟩, ?_⟩
  unfold Block.standsIn? at hreplaced
  cases hF : flatBlock.factorizeJacobian.1 with
  | error _ =>
    rw [hF] at hreplaced
    cases hreplaced
  | ok F =>
    rw [hF] at hreplaced
    exact hfails F hF (Option.some.inj hreplaced)

end AlgebraicLoop
