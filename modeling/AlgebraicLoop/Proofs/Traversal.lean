import AlgebraicLoop.Proofs.IterationParts

/-!
# Properties of everything a solve does

Whatever holds of the requests to a model, of the changes a solve makes to its session and of
reading what a solve may read, and is kept by putting actions in sequence, holds of every part of a
solve. `Closed` says the first for a property of actions; the rest of the module says the second,
one lemma for each part.

* `Session.shown`: a session with all that no attempt reads made equal;
* `Tame`: a change that makes no request, reads nothing hidden, and keeps a given part;
* `Session.setting`, `Session.stage`, `Session.spot`, `Session.footing`: the parts that are kept by
  ever smaller portions of a solve;
* `Session.written`, `analyticJacobian_eq`: what is there after the model wrote its Jacobian;
* `Closed.prepareJacobian`, `Closed.updateResidualScales`, `Closed.computeStep`,
  `Closed.searchDirection`: the parts of an iteration.
-/

namespace AlgebraicLoop
set_option autoImplicit false

/-! ## What is read and what is kept -/

section
variable {α : Type} {n : Nat}

/-- The box without the effects of the last limited step. -/
def Box.blank (box : Box α n) : Box α n :=
  { box with bounds := box.bounds.map fun b => { b with effect := .inactive } }

theorem Box.blank_blank (box : Box α n) : box.blank.blank = box.blank := by
  unfold Box.blank
  rw [List.map_map]
  rfl

/-- The history of the last attempt, where the past counts. -/
def recalled (past : Bool) (history : Option (StepHistory α n)) : Option (StepHistory α n) :=
  match past with
  | true => history
  | false => none

theorem recalled_recalled (past : Bool) (history : Option (StepHistory α n)) :
    recalled past (recalled past history) = recalled past history := by
  cases past <;> rfl

@[simp] theorem recalled_none (past : Bool) :
    recalled past (none : Option (StepHistory α n)) = none := by
  cases past <;> rfl

end

section
variable {α σ : Type} [Scalar α] {n : Nat}

/-- An event came after the Jacobian that is in use. -/
def Session.outdated (s : Session α σ n) : Bool :=
  s.work.flags.jacobianCurrent && s.eventSinceJacobian

/-- The session with the given mark of an event, box, history and model state, and with all else made
equal that no attempt reads. -/
def Session.veiled (s : Session α σ n) (event : Bool) (box : Box α n)
    (history : Option (StepHistory α n)) (model : σ) : Session α σ n where
  x := s.x
  lower := s.lower
  upper := s.upper
  nominal := s.nominal
  initial := Vector.replicate n 0
  phase := .iterating
  counters := {}
  atEvent := false
  eventSinceJacobian := event
  guessGiven := false
  bracket := {}
  work := { s.work with box, history, accepted := none }
  model
  notices := #[]
  calls := #[]

/-- What an attempt can read of a session, with the given model state; without `past` not the
history of the last attempt. An event counts as long as there is a Jacobian that it came after. -/
def Session.shown (past : Bool) (s : Session α σ n) (model : σ) : Session α σ n :=
  s.veiled s.outdated s.work.box.blank (recalled past s.work.history) model

/-- The record of a session: the state of its model, its notices and requests, and what was taken
from them. -/
structure Ledger (α σ : Type) (n : Nat) where
  model : σ
  notices : Array (Notice α)
  calls : Array (Call α n)
  bracket : Bracket α
  residualEvaluations : Nat

/-- The record of a session. -/
def Session.ledger (s : Session α σ n) : Ledger α σ n :=
  ⟨s.model, s.notices, s.calls, s.bracket, s.counters.residualEvaluations⟩

/-- What is fixed once a solve has been set up. -/
structure Setting (α : Type) (n : Nat) where
  lower : Vector α n
  upper : Vector α n
  nominal : Vector α n
  initial : Vector α n
  solves : Nat
  atEvent : Bool
  guessGiven : Bool
  variableScale : Vector α n
  box : Box α n
  pattern : Option (Pattern n n)
  accepted : Option (Checkpoint α n)
  ready : Bool
  /-- Left out where exact derivatives are compared with difference quotients. -/
  jacobianMismatches : Option Nat

/-- What is fixed during one attempt. -/
structure Stage (α : Type) (n : Nat) extends Setting α n where
  firstAttempt : Bool
  retrying : Bool

/-- What is fixed between two moves of an attempt. -/
structure Spot (α : Type) (n : Nat) extends Stage α n where
  x : Vector α n
  iterations : Nat
  history : Option (StepHistory α n)
  lastNorm : α

/-- What is fixed while the residual scales stay. -/
structure Footing (α : Type) (n : Nat) extends Spot α n where
  residualScale : Vector α n

/-- The factorization of a session, and the marks that say what it and the Jacobian are good for. -/
structure Marks (α : Type) (n : Nat) where
  factorization : Factorization α n
  generation : Nat
  factoredGeneration : Option Nat
  current : Bool
  atPoint : Bool
  forced : Bool
  eventSince : Bool

/-- The marks, with what was found out about the Jacobian: whether it is to be treated as singular, and
whether the last one that was factored was. -/
structure Findings (α : Type) (n : Nat) extends Marks α n where
  premarked : Bool
  singular : Bool

namespace Session

/-- What is fixed once a solve has been set up. -/
def setting (P : Problem α σ n) (s : Session α σ n) : Setting α n where
  lower := s.lower
  upper := s.upper
  nominal := s.nominal
  initial := s.initial
  solves := s.counters.solves
  atEvent := s.atEvent
  guessGiven := s.guessGiven
  variableScale := s.work.variableScale
  box := s.work.box.blank
  pattern := s.work.pattern
  accepted := s.work.accepted
  ready := s.work.ready
  jacobianMismatches :=
    if P.options.checkJacobian then none else some s.work.jacobianMismatches

/-- What is fixed during one attempt. -/
def stage (P : Problem α σ n) (s : Session α σ n) : Stage α n :=
  { s.setting P with firstAttempt := s.work.firstAttempt, retrying := s.work.retrying }

/-- What is fixed between two moves of an attempt. -/
def spot (P : Problem α σ n) (s : Session α σ n) : Spot α n :=
  { s.stage P with
    x := s.x
    iterations := s.counters.iterations
    history := s.work.history
    lastNorm := s.work.lastNorm }

/-- What is fixed while the residual scales stay. -/
def footing (P : Problem α σ n) (s : Session α σ n) : Footing α n :=
  { s.spot P with residualScale := s.work.residualScale }

/-- The factorization and the marks on it and on the Jacobian. -/
def marks (s : Session α σ n) : Marks α n where
  factorization := s.work.factorization
  generation := s.work.generation
  factoredGeneration := s.work.factoredGeneration
  current := s.work.flags.jacobianCurrent
  atPoint := s.work.jacobianAtPoint
  forced := s.work.flags.forceNewJacobian
  eventSince := s.eventSinceJacobian

/-- The marks, with what was found out about the Jacobian. -/
def findings (s : Session α σ n) : Findings α n :=
  { s.marks with
    premarked := s.work.premarkedSingular
    singular := s.work.flags.singular }

/-- What is fixed while columns are put into the Jacobian. -/
def ground (P : Problem α σ n) (s : Session α σ n) : Footing α n × Findings α n :=
  (s.footing P, s.findings)

/-- What is fixed while the Jacobian and its factorization are put to use. -/
def grip (P : Problem α σ n) (s : Session α σ n) : (Footing α n × Findings α n) × Mat α n n :=
  (s.ground P, s.work.jacobian)

/-- What is fixed while the residual scales are adapted to the Jacobian. -/
def hold (P : Problem α σ n) (s : Session α σ n) : (Spot α n × Findings α n) × Mat α n n :=
  ((s.spot P, s.findings), s.work.jacobian)

end Session

/-! ## Reading what is shown -/

omit [Scalar α] in
theorem Session.outdated_again (s : Session α σ n) :
    (s.work.flags.jacobianCurrent && s.outdated) = s.outdated :=
  Bool.and_self_left _ _


theorem Box.isNearBound_blank (box : Box α n) (i : Fin n) (x reach : α) :
    box.blank.isNearBound i x reach = box.isNearBound i x reach := by
  unfold Box.isNearBound Box.blank
  rw [List.any_map]
  rfl

theorem Box.clamp_blank (box : Box α n) (x : Vector α n) : box.blank.clamp x = box.clamp x := by
  unfold Box.clamp Box.blank
  rw [List.foldl_map]

theorem isTwoSided_shown (o : Options α) (past : Bool) (s : Session α σ n) (model : σ)
    (x : Vector α n) : isTwoSided o (s.shown past model).work x = isTwoSided o s.work x := by
  funext j
  unfold isTwoSided
  simp only [Session.shown, Session.veiled, Box.isNearBound_blank]
  rfl

theorem clampPoint_shown (P : Problem α σ n) (past : Bool) (s : Session α σ n) (model : σ)
    (x : Vector α n) : clampPoint P (s.shown past model).work x = clampPoint P s.work x := by
  unfold clampPoint
  simp only [Session.shown, Session.veiled, Box.clamp_blank]

/-- Without a Jacobian it does not matter what came after it. -/
theorem planJacobian_outdated (o : Options α) (variability : Variability) (s : Session α σ n)
    (iteration : Nat) (f : Vector α n) :
    planJacobian o variability s.outdated s.work iteration f =
      planJacobian o variability s.eventSinceJacobian s.work iteration f := by
  unfold Session.outdated
  cases hcurrent : s.work.flags.jacobianCurrent with
  | true => rw [Bool.true_and]
  | false =>
    have hdue : s.work.flags.forceNewJacobian = true ∨ (!s.work.flags.jacobianCurrent) = true := by
      rw [hcurrent]
      exact .inr rfl
    unfold planJacobian
    rw [if_pos hdue, if_pos hdue]

/-- A secant update is taken of a Jacobian that can be used. -/
theorem current_of_update {o : Options α} {variability : Variability} {event : Bool}
    {w : Workspace α n} {iteration : Nat} {f : Vector α n} {J : Mat α n n}
    (h : planJacobian o variability event w iteration f = .update J) :
    w.flags.jacobianCurrent = true := by
  unfold planJacobian at h
  split at h
  · cases h
  · next hkept => simpa using (not_or.1 hkept).2

/-- A secant update does not have to say that the Jacobian can be used. -/
theorem prepareJacobian_secure (P : Problem α σ n) (iteration : Nat) (x f : Vector α n) :
    prepareJacobian P iteration x f = (do
      let s ← get
      match planJacobian P.options P.variability s.eventSinceJacobian s.work iteration f with
      | .alreadyFresh => pure (.ok true)
      | .evaluate => do
        match ← evaluateJacobian P x f with
        | .ok () => pure (.ok true)
        | .error mishap => pure (.error mishap)
      | .keep => do
        modifyWork fun w => { w with jacobianAge := w.jacobianAge + 1 }
        pure (.ok false)
      | .update J => do
        modifyWork fun w =>
          { w with
            jacobian := J
            generation := w.generation + 1
            jacobianAge := w.jacobianAge + 1 }
        pure (.ok false)) := by
  funext s
  unfold prepareJacobian
  rw [get_bind_apply, get_bind_apply]
  cases hplan : planJacobian P.options P.variability s.eventSinceJacobian s.work iteration f with
  | update J =>
    have hcurrent := current_of_update hplan
    dsimp only
    rw [modifyWork_bind_apply, modifyWork_bind_apply]
    unfold Workspace.jacobianChanged
    rw [← hcurrent]
  | _ => rfl

/-- Stores what the model would leave in a matrix that it was handed to write its Jacobian at `x`. -/
def overwriteJacobian (jacobian : Vector α n → σ → Writing α σ n) (x : Vector α n) (A : Mat α n n) :
    Action α σ n Unit := do
  let s ← get
  storeJacobian ((jacobian x s.model).left A)

omit [Scalar α] in
/-- What the model leaves in the stored matrix may be put there before it is asked. -/
theorem analyticJacobian_eq (jacobian : Vector α n → σ → Writing α σ n) (x : Vector α n) :
    (analyticJacobian jacobian x : Action α σ n _) = (do
      let A := (← get).work.jacobian
      overwriteJacobian jacobian x A
      ask (fun model => (jacobian x model).answer A) (.jacobian x) >>=
        settleAnswer .differentiate) := rfl

/-- The session after the model was handed the stored matrix to write its Jacobian at `x`. -/
def Session.written (s : Session α σ n) (jacobian : Vector α n → σ → Writing α σ n)
    (x : Vector α n) : Session α σ n :=
  let writing := jacobian x s.model
  { s with
    model := (writing.answer s.work.jacobian).2
    calls := s.calls.push (.jacobian x (writing.answer s.work.jacobian).1)
    work := { s.work with jacobian := writing.left s.work.jacobian } }

omit [Scalar α] in
theorem analyticJacobian_apply (jacobian : Vector α n → σ → Writing α σ n) (x : Vector α n)
    (s : Session α σ n) :
    analyticJacobian jacobian x s = settleAnswer .differentiate
      ((jacobian x s.model).answer s.work.jacobian).1 (s.written jacobian x) := rfl

omit [Scalar α] in
/-- A successful answer is the matrix as it was left. -/
theorem Writing.left_of_answer {w : Writing α σ n} {A B : Mat α n n} (h : (w.answer A).1 = .ok B) :
    w.left A = B := by
  unfold Writing.answer at h
  cases hends : (w.run A).1.1 with
  | error failure => rw [hends] at h; cases h
  | ok _ => rw [hends] at h; exact Except.ok.inj h

/-! ## Closed properties -/

/-- The phases of a solve that has begun to step. -/
def Phase.Running : Phase → Prop
  | .iterating | .regularizing | .minimumNorm | .steepestDescent => True
  | .untouched | .started | .converged | .failed => False

theorem Phase.Running.ne {phase : Phase} (h : phase.Running) : phase ≠ .untouched := by
  rintro rfl
  exact h

/-- The second session has started and is without an event, if the first one is. -/
structure Onward (s t : Session α σ n) : Prop where
  phase : s.phase ≠ .untouched → t.phase ≠ .untouched
  event : s.eventSinceJacobian = false → t.eventSinceJacobian = false

/-- The second session is in the phase of the first one or in the midst of a solve, and is without an
event, if the first one is. -/
structure Proceeds (s t : Session α σ n) : Prop where
  phase : t.phase = s.phase ∨ t.phase.Running
  event : s.eventSinceJacobian = false → t.eventSinceJacobian = false

omit [Scalar α] in
theorem Proceeds.onward {s t : Session α σ n} (h : Proceeds s t) : Onward s t where
  phase hs := h.phase.elim (fun heq => heq ▸ hs) Phase.Running.ne
  event := h.event

/-- The second number can follow on the first one as the scale of a residual: it is the same, or
one, or a raw scale confined to the range of the options. -/
def Rescaled (o : Options α) (old new : α) : Prop :=
  new = old ∨ new = 1 ∨ ∃ raw, new = (clampScale raw o.leastScale o.greatestScale).1

/-- A change of a session that makes no request, does not read what is hidden, keeps a given part,
gives no verdict, and treats the residual scales as the options ask. -/
structure Tame {γ : Type} (o : Options α) (past : Bool) (keep : Session α σ n → γ)
    (g : Session α σ n → Session α σ n) : Prop where
  silent : ∀ s, (g s).ledger = s.ledger
  uniform : ∀ s m, (g (s.shown past m)).shown past m = (g s).shown past m
  keeps : ∀ s, keep (g s) = keep s
  proceeds : ∀ s, Proceeds s (g s)
  scales : ∀ (s : Session α σ n) (i : Fin n),
    Rescaled o s.work.residualScale[i] (g s).work.residualScale[i]

theorem tame {γ : Type} {o : Options α} {past : Bool} {keep : Session α σ n → γ}
    {g : Session α σ n → Session α σ n} (silent : ∀ s, (g s).ledger = s.ledger)
    (still : ∀ s, (g s).work.box = s.work.box ∧ (g s).work.history = s.work.history ∧
      (g s).work.flags.jacobianCurrent = s.work.flags.jacobianCurrent ∧
      (g s).eventSinceJacobian = s.eventSinceJacobian)
    (uniform : ∀ s e b h m, (g (s.veiled e b h m)).veiled e b h m = (g s).veiled e b h m)
    (keeps : ∀ s, keep (g s) = keep s) (proceeds : ∀ s, Proceeds s (g s))
    (scales : ∀ (s : Session α σ n) (i : Fin n),
      Rescaled o s.work.residualScale[i] (g s).work.residualScale[i]) :
    Tame o past keep g := by
  refine ⟨silent, fun s m => ?_, keeps, proceeds, scales⟩
  have houtdated : ∀ t, (g t).outdated = t.outdated := fun t => by
    obtain ⟨-, -, hcurrent, hevent⟩ := still t
    unfold Session.outdated
    rw [hcurrent, hevent]
  unfold Session.shown
  rw [(still _).1, (still _).2.1, (still s).1, (still s).2.1, houtdated, houtdated]
  change (g _).veiled (s.work.flags.jacobianCurrent && s.outdated) s.work.box.blank.blank
    (recalled past (recalled past s.work.history)) m = _
  rw [s.outdated_again, Box.blank_blank, recalled_recalled, uniform]

/-- A property of actions that holds of the requests of a solve, of reading what a solve may read
and of changing all but a given part of the session, and that is kept by sequences. -/
structure Closed {γ : Type} (P : Problem α σ n) (past : Bool) (keep : Session α σ n → γ)
    (C : (β : Type) → Action α σ n β → Prop) : Prop where
  value : ∀ {β : Type} (v : β), C β (pure v)
  seq : ∀ {β β' : Type} {a : Action α σ n β} {f : β → Action α σ n β'},
    C β a → (∀ v, C β' (f v)) → C β' (a >>= f)
  read : ∀ {β : Type} {f : Session α σ n → Action α σ n β},
    (∀ s m, f (s.shown past m) = f s) → (∀ s, C β (f s)) → C β (get >>= f)
  residualNominals : ∀ {β : Type} {f : Session α σ n → Action α σ n β},
    (∀ s t, P.model.residualNominals s.model = P.model.residualNominals t.model → f s = f t) →
      (∀ s, C β (f s)) → C β (get >>= f)
  update : ∀ {g : Session α σ n → Session α σ n}, Tame P.options past keep g → C Unit (modify g)
  notice : ∀ notice, C Unit (notify notice)
  residual : ∀ x, C _ (evaluate P x)
  written : ∀ jacobian, P.model.jacobian = some jacobian → ∀ x A,
    (∀ B, C _ (storeJacobian B)) → C _ (overwriteJacobian jacobian x A)
  jacobian : ∀ jacobian, P.model.jacobian = some jacobian → ∀ x A,
    C _ (ask (fun model => (jacobian x model).answer A) (.jacobian x) >>=
      settleAnswer .differentiate)
  directional : ∀ derivative, P.model.directional = some derivative → ∀ x direction,
    C _ (ask (derivative x direction) (.directional x direction) >>= settleAnswer .differentiate)
  auxiliary : ∀ x, C _ (updateAuxiliary P x)
  limit : ∀ x step, C _ (limitByBox P x step)

namespace Closed
variable {γ γ' : Type} {P : Problem α σ n} {past : Bool} {keep : Session α σ n → γ}
  {C : (β : Type) → Action α σ n β → Prop}

/-- What may change less is closed as well. -/
theorem finer (hC : Closed P past keep C) {keep' : Session α σ n → γ'} (part : γ' → γ)
    (h : ∀ s, keep s = part (keep' s)) : Closed P past keep' C where
  value := hC.value
  seq := hC.seq
  read := hC.read
  residualNominals := hC.residualNominals
  update ht :=
    hC.update ⟨ht.silent, ht.uniform, fun s => by rw [h, h, ht.keeps], ht.proceeds, ht.scales⟩
  notice := hC.notice
  residual := hC.residual
  written := hC.written
  jacobian := hC.jacobian
  directional := hC.directional
  auxiliary := hC.auxiliary
  limit := hC.limit

theorem stage (hC : Closed P past (Session.setting P) C) : Closed P past (Session.stage P) C :=
  hC.finer Stage.toSetting fun _ => rfl

theorem spot (hC : Closed P past (Session.stage P) C) : Closed P past (Session.spot P) C :=
  hC.finer Spot.toStage fun _ => rfl

theorem footing (hC : Closed P past (Session.spot P) C) : Closed P past (Session.footing P) C :=
  hC.finer Footing.toSpot fun _ => rfl

theorem ground (hC : Closed P past (Session.footing P) C) : Closed P past (Session.ground P) C :=
  hC.finer Prod.fst fun _ => rfl

theorem grip (hC : Closed P past (Session.ground P) C) : Closed P past (Session.grip P) C :=
  hC.finer Prod.fst fun _ => rfl

theorem hold (hC : Closed P past (Session.spot P) C) : Closed P past (Session.hold P) C :=
  hC.finer (fun p => p.1.1) fun _ => rfl

/-- A change of the workspace that leaves box, history and the mark on the Jacobian as they are. -/
theorem rescale (hC : Closed P past keep C) {g : Workspace α n → Workspace α n}
    (still : ∀ w, (g w).box = w.box ∧ (g w).history = w.history ∧
      (g w).flags.jacobianCurrent = w.flags.jacobianCurrent)
    (uniform : ∀ w b h, g { w with box := b, history := h, accepted := none } =
      { g w with box := b, history := h, accepted := none })
    (keeps : ∀ s : Session α σ n, keep { s with work := g s.work } = keep s)
    (scales : ∀ (w : Workspace α n) (i : Fin n),
      Rescaled P.options w.residualScale[i] (g w).residualScale[i]) :
    C Unit (modifyWork g) := by
  refine hC.update (tame (fun _ => rfl) (fun s => ?_) (fun s e b h m => ?_) keeps
    (fun _ => ⟨.inl rfl, id⟩) fun s => scales s.work)
  · obtain ⟨hbox, hhistory, hcurrent⟩ := still s.work
    exact ⟨hbox, hhistory, hcurrent, rfl⟩
  · simp only [Session.veiled, uniform]

/-- A change of the workspace that leaves the residual scales as they are as well. -/
theorem work (hC : Closed P past keep C) {g : Workspace α n → Workspace α n}
    (still : ∀ w, (g w).box = w.box ∧ (g w).history = w.history ∧
      (g w).flags.jacobianCurrent = w.flags.jacobianCurrent ∧
      (g w).residualScale = w.residualScale)
    (uniform : ∀ w b h, g { w with box := b, history := h, accepted := none } =
      { g w with box := b, history := h, accepted := none })
    (keeps : ∀ s : Session α σ n, keep { s with work := g s.work } = keep s) :
    C Unit (modifyWork g) :=
  hC.rescale (fun w => ⟨(still w).1, (still w).2.1, (still w).2.2.1⟩) uniform keeps fun w i =>
    .inl (congrArg (fun v : Vector α n => v[i]) (still w).2.2.2)

/-- A solve that goes on to another phase. -/
theorem enter (hC : Closed P past keep C) {phase : Phase} (hphase : phase.Running)
    (keeps : ∀ s : Session α σ n, keep { s with phase } = keep s) :
    C Unit (modify fun s => { s with phase }) :=
  hC.update (tame (fun _ => rfl) (fun _ => ⟨rfl, rfl, rfl, rfl⟩) (fun _ _ _ _ _ => rfl) keeps
    (fun _ => ⟨.inr hphase, id⟩) fun _ _ => .inl rfl)

theorem each (hC : Closed P past keep C) {ι : Type} (f : ι → Action α σ n Unit)
    (hf : ∀ i, C _ (f i)) (l : List ι) : C _ (l.forM f) := by
  induction l with
  | nil => exact hC.value ()
  | cons i rest ih => exact hC.seq (hf i) fun _ => ih

/-! ## Difference quotients -/

theorem oneSidedColumn (hC : Closed P past keep C) (scale x f : Vector α n) (j : Fin n) :
    C _ (oneSidedColumn P scale x f j) := by
  refine hC.read (fun _ _ => rfl) fun s => ?_
  refine hC.seq (hC.residual _) fun ahead => ?_
  cases ahead with
  | ok g => exact hC.value _
  | error mishap =>
    refine hC.seq (hC.residual _) fun behind => ?_
    cases behind with
    | ok g => exact hC.value _
    | error _ => exact hC.value _

theorem probeSide (hC : Closed P past keep C) (x f : Vector α n) (j : Fin n)
    (room target width : α) : C _ (probeSide P x f j room target width) := by
  unfold AlgebraicLoop.probeSide
  split
  · refine hC.seq (hC.residual _) fun answer => ?_
    cases answer with
    | ok g => exact hC.value _
    | error _ => exact hC.value _
  · exact hC.value _

theorem twoSidedColumn (hC : Closed P past keep C) (scale x f : Vector α n) (j : Fin n) :
    C _ (twoSidedColumn P scale x f j) := by
  refine hC.read (fun _ _ => rfl) fun s => ?_
  refine hC.seq (hC.probeSide x f j _ _ _) fun right => ?_
  refine hC.seq (hC.probeSide x f j _ _ _) fun left => ?_
  dsimp only
  split
  · exact hC.value _
  · exact hC.value _

theorem fillColumns (hC : Closed P past keep C)
    {column : Fin n → Action α σ n (Except Mishap (Vector α n))}
    (hcolumn : ∀ j, C _ (column j)) {publish : Mat α n n → Action α σ n Unit}
    (hpublish : ∀ A, C _ (publish A)) (l : List (Fin n)) (A : Mat α n n) :
    C _ (fillColumns column publish l A) := by
  induction l generalizing A with
  | nil => exact hC.value _
  | cons j rest ih =>
    refine hC.seq (hcolumn j) fun answer => ?_
    cases answer with
    | ok c => exact hC.seq (hpublish _) fun _ => ih _
    | error _ => exact hC.value _

theorem differences (hC : Closed P past keep C) (scale : Vector α n) (twoSided : Fin n → Bool)
    (x f : Vector α n) {publish : Mat α n n → Action α σ n Unit}
    (hpublish : ∀ A, C _ (publish A)) (A : Mat α n n) :
    C _ (differences P scale twoSided x f publish A) := by
  refine hC.fillColumns (fun j => ?_) hpublish _ A
  split
  · exact hC.twoSidedColumn scale x f j
  · exact hC.oneSidedColumn scale x f j

theorem compressedDifferences (hC : Closed P past keep C) (scale : Vector α n)
    (pattern : Pattern n n) (x f : Vector α n) {publish : Mat α n n → Action α σ n Unit}
    (hpublish : ∀ A, C _ (publish A)) (groups : List (List (Fin n))) (A : Mat α n n) :
    C _ (compressedDifferences P scale pattern x f publish groups A) := by
  induction groups generalizing A with
  | nil => exact hC.value _
  | cons group rest ih =>
    refine hC.read (fun _ _ => rfl) fun s => ?_
    refine hC.seq (hC.residual _) fun answer => ?_
    cases answer with
    | ok g => exact hC.seq (hpublish _) fun _ => ih _
    | error _ => exact hC.value _

/-! ## The Jacobian -/

theorem storeJacobian (hC : Closed P past (Session.ground P) C) (A : Mat α n n) :
    C _ (storeJacobian A) := hC.work (fun _ => ⟨rfl, rfl, rfl, rfl⟩) (fun _ _ _ => rfl) fun _ => rfl

theorem groupedJacobian (hC : Closed P past keep C) (hstore : ∀ A, C _ (AlgebraicLoop.storeJacobian A))
    (pattern : Pattern n n) (x f : Vector α n) : C _ (groupedJacobian P pattern x f) := by
  refine hC.read (fun _ _ => rfl) fun s => ?_
  refine hC.seq (hC.compressedDifferences _ pattern x f hstore _ _) fun answer => ?_
  cases answer with
  | ok A => exact hC.value _
  | error mishap =>
    refine hC.seq (hC.notice _) fun _ => ?_
    exact hC.read (fun _ _ => rfl) fun t => hC.differences _ _ x f hstore _

theorem exactJacobian (hC : Closed P past keep C) (hstore : ∀ A, C _ (AlgebraicLoop.storeJacobian A))
    {x : Vector α n} {A : Mat α n n} {exact : Action α σ n (Except Mishap (Mat α n n))}
    (h : exactJacobian? P x A = some exact) : C _ exact := by
  unfold exactJacobian? at h
  split at h
  · obtain ⟨jacobian, hj, rfl⟩ := Option.map_eq_some_iff.1 h
    rw [analyticJacobian_eq]
    refine hC.read (fun _ _ => rfl) fun s => ?_
    exact hC.seq (hC.written jacobian hj x s.work.jacobian hstore) fun _ =>
      hC.jacobian jacobian hj x s.work.jacobian
  · obtain ⟨derivative, hd, rfl⟩ := Option.map_eq_some_iff.1 h
    exact hC.fillColumns (fun j => hC.directional derivative hd x _) hstore _ A

theorem sourceJacobian (hC : Closed P past keep C) (hstore : ∀ A, C _ (AlgebraicLoop.storeJacobian A))
    (x f : Vector α n) : C _ (sourceJacobian P x f) := by
  refine hC.read (fun s m => ?_) fun s => ?_
  · dsimp only
    rw [isTwoSided_shown]
    rfl
  · dsimp only
    split
    · next exact he => exact hC.seq (hC.exactJacobian hstore he) fun _ => hC.value _
    · split
      · exact hC.seq (hC.groupedJacobian hstore _ x f) fun _ => hC.value _
      · exact hC.seq (hC.differences _ _ x f hstore _) fun _ => hC.value _

theorem compareEntry (hC : Closed P past (Session.grip P) C)
    (h : P.options.checkJacobian = true) (tolerance : α) (J D : Mat α n n) (i j : Fin n) :
    C _ (compareEntry tolerance J D i j) := by
  unfold AlgebraicLoop.compareEntry
  split
  · refine hC.seq (hC.work (fun _ => ⟨rfl, rfl, rfl, rfl⟩) (fun _ _ _ => rfl) fun s => ?_)
      fun _ => hC.notice _
    simp only [Session.grip, Session.ground, Session.footing, Session.spot, Session.stage,
      Session.setting, h, if_true]
    rfl
  · exact hC.value _

theorem compareWithDifferences (hC : Closed P past keep C)
    (hcompare : ∀ tolerance J D i j, C _ (AlgebraicLoop.compareEntry tolerance J D i j))
    (x f : Vector α n) : C _ (compareWithDifferences P x f) := by
  refine hC.read (fun _ _ => rfl) fun s => ?_
  refine hC.seq (hC.differences _ _ x f (fun _ => hC.value _) _) fun answer => ?_
  cases answer with
  | error _ => exact hC.value _
  | ok D => exact hC.each _ (fun j => hC.each _ (fun i => hcompare _ _ D i j) _) _

theorem rejectJacobian (hC : Closed P past (Session.footing P) C) :
    C _ rejectJacobian := by
  refine hC.update ⟨fun _ => rfl, fun s m => ?_, fun _ => rfl, fun _ => ⟨.inl rfl, id⟩,
    fun _ _ => .inl rfl⟩
  simp only [Session.shown, Session.veiled, Session.outdated, Box.blank_blank, recalled_recalled,
    Bool.false_and]

theorem acceptJacobian (hC : Closed P past (Session.footing P) C) :
    C _ acceptJacobian := by
  refine hC.update ⟨fun _ => rfl, fun s m => ?_, fun _ => rfl, fun _ => ⟨.inl rfl, fun _ => rfl⟩,
    fun _ _ => .inl rfl⟩
  simp only [Session.shown, Session.veiled, Session.outdated, Box.blank_blank, recalled_recalled,
    Bool.and_false, Workspace.jacobianChanged]

/-- An evaluation of the Jacobian, given the changes that it makes to the session. -/
theorem evaluateJacobian_of (hC : Closed P past keep C)
    (hstore : ∀ A, C _ (AlgebraicLoop.storeJacobian A)) (hreject : C _ AlgebraicLoop.rejectJacobian)
    (haccept : C _ AlgebraicLoop.acceptJacobian)
    (hcompare : P.options.checkJacobian = true → ∀ tolerance J D i j,
      C _ (AlgebraicLoop.compareEntry tolerance J D i j))
    (x f : Vector α n) : C _ (evaluateJacobian P x f) := by
  refine hC.seq (hC.sourceJacobian hstore x f) fun (status, exact) => ?_
  cases status with
  | error mishap => exact hC.seq hreject fun _ => hC.value _
  | ok A =>
    dsimp only
    split
    · exact hC.seq hreject fun _ => hC.value _
    · refine hC.seq haccept fun _ => ?_
      split
      · next h =>
        have hcheck : P.options.checkJacobian = true := (Bool.and_eq_true_iff.1 h).2
        exact hC.seq (hC.compareWithDifferences (hcompare hcheck) x f) fun _ => hC.value _
      · exact hC.value _

theorem evaluateJacobian (hC : Closed P past (Session.footing P) C) (x f : Vector α n) :
    C _ (evaluateJacobian P x f) :=
  hC.evaluateJacobian_of hC.ground.storeJacobian hC.rejectJacobian hC.acceptJacobian
    hC.ground.grip.compareEntry x f

theorem prepareJacobian (hC : Closed P true (Session.footing P) C) (iteration : Nat)
    (x f : Vector α n) : C _ (prepareJacobian P iteration x f) := by
  rw [prepareJacobian_secure]
  refine hC.read (fun s m => ?_) fun s => ?_
  · have hplan : planJacobian P.options P.variability (s.shown true m).eventSinceJacobian
        (s.shown true m).work iteration f =
          planJacobian P.options P.variability s.eventSinceJacobian s.work iteration f :=
      planJacobian_outdated P.options P.variability s iteration f
    rw [hplan]
  split
  · exact hC.value _
  · refine hC.seq (hC.evaluateJacobian x f) fun answer => ?_
    cases answer with
    | ok _ => exact hC.value _
    | error _ => exact hC.value _
  · exact hC.seq (hC.work (fun _ => ⟨rfl, rfl, rfl, rfl⟩) (fun _ _ _ => rfl) fun _ => rfl)
      fun _ => hC.value _
  · exact hC.seq (hC.work (fun _ => ⟨rfl, rfl, rfl, rfl⟩) (fun _ _ _ => rfl) fun _ => rfl)
      fun _ => hC.value _

/-! ## Scales -/

theorem storeScale (hC : Closed P past (Session.hold P) C) (raw : Vector α n) (i : Fin n) :
    C _ (storeScale P.options raw i) := by
  have store : C Unit (modifyWork fun w => { w with
      residualScale := w.residualScale.set i
        (clampScale raw[i] P.options.leastScale P.options.greatestScale).1 i.isLt }) := by
    refine hC.rescale (fun _ => ⟨rfl, rfl, rfl⟩) (fun _ _ _ => rfl) (fun _ => rfl) fun w j => ?_
    by_cases hij : i = j
    · subst hij
      exact .inr (.inr ⟨raw[i], Vector.getElem_set_self i.isLt⟩)
    · exact .inl (Vector.getElem_set_ne i.isLt j.isLt fun h => hij (Fin.ext h))
  unfold AlgebraicLoop.storeScale
  dsimp only
  split
  · refine hC.seq (hC.work (fun _ => ⟨rfl, rfl, rfl, rfl⟩) (fun _ _ _ => rfl) fun _ => rfl) fun _ => ?_
    exact hC.seq (hC.notice _) fun _ => store
  · exact store

theorem storeScales (hC : Closed P past (Session.hold P) C) (raw : Vector α n) :
    C _ (storeScales P.options raw) := hC.each _ (hC.storeScale raw) _

theorem freshRowScales (hC : Closed P past (Session.footing P) C) (x : Vector α n) :
    C _ (freshRowScales P x) := by
  refine hC.seq (hC.residual x) fun answer => ?_
  cases answer with
  | error _ => exact hC.value _
  | ok f =>
    refine hC.seq (hC.evaluateJacobian x f) fun status => ?_
    cases status with
    | error _ => exact hC.value _
    | ok _ => exact hC.read (fun _ _ => rfl) fun s => hC.value _

theorem withNominals (hC : Closed P past (Session.footing P) C)
    (automatic : Option (Vector α n)) : C _ (withNominals P automatic) := by
  refine hC.residualNominals (fun s t h => ?_) fun s => ?_
  · rw [h]
  · split
    · exact hC.value _
    · exact hC.value _

theorem rawScales (hC : Closed P past (Session.footing P) C) : C _ (rawScales P) := by
  refine hC.read (fun _ _ => rfl) fun s => ?_
  dsimp only
  split
  · refine hC.seq (hC.freshRowScales s.x) fun automatic => ?_
    split
    · exact hC.withNominals automatic
    · exact hC.value _
  · refine hC.seq (hC.value _) fun automatic => ?_
    split
    · exact hC.withNominals automatic
    · exact hC.value _

theorem checkCondition (hC : Closed P past (Session.footing P) C) : C _ (checkCondition P) := by
  have mark : C Unit (modifyWork fun w =>
      { w with premarkedSingular := true, factoredGeneration := none }) :=
    hC.work (fun _ => ⟨rfl, rfl, rfl, rfl⟩) (fun _ _ _ => rfl) fun _ => rfl
  refine hC.read (fun _ _ => rfl) fun s => ?_
  dsimp only
  split
  · split
    · refine hC.seq (hC.notice _) fun _ => ?_
      split
      · exact hC.seq (hC.notice _) fun _ => mark
      · exact hC.value _
    · split
      · exact hC.seq (hC.notice _) fun _ => mark
      · exact hC.value _
  · exact hC.value _

theorem updateResidualScales (hC : Closed P past (Session.spot P) C) :
    C _ (updateResidualScales P) := by
  refine hC.seq (hC.work (fun _ => ⟨rfl, rfl, rfl, rfl⟩) (fun _ _ _ => rfl) fun _ => rfl) fun _ => ?_
  dsimp only
  split
  · exact hC.rescale (fun _ => ⟨rfl, rfl, rfl⟩) (fun _ _ _ => rfl) (fun _ => rfl) fun _ i =>
      .inr (.inl (Vector.getElem_replicate i.isLt))
  · refine hC.seq hC.footing.rawScales fun raw => ?_
    cases raw with
    | none => exact hC.value _
    | some raw =>
      refine hC.seq (hC.work (fun _ => ⟨rfl, rfl, rfl, rfl⟩) (fun _ _ _ => rfl) fun _ => rfl) fun _ => ?_
      exact hC.seq (hC.hold.storeScales raw) fun _ => hC.footing.checkCondition

theorem tightenResidualScales (hC : Closed P past (Session.hold P) C) (x : Vector α n) :
    C _ (tightenResidualScales P x) := by
  refine hC.read (fun _ _ => rfl) fun s => ?_
  exact hC.storeScales _

/-! ## Steps -/

theorem storeFactorization (hC : Closed P past (Session.footing P) C)
    (factorization : Factorization α n) : C _ (storeFactorization factorization) :=
  hC.work (fun _ => ⟨rfl, rfl, rfl, rfl⟩) (fun _ _ _ => rfl) fun _ => rfl

theorem factorMinimumNorm (hC : Closed P past (Session.footing P) C) :
    C _ factorMinimumNorm := by
  refine hC.read (fun _ _ => rfl) fun s => ?_
  split
  · refine hC.seq (hC.notice _) fun _ => ?_
    exact hC.seq (hC.storeFactorization _) fun _ => hC.value _
  · exact hC.seq (hC.storeFactorization _) fun _ => hC.value _

theorem factorRecovery (hC : Closed P past (Session.footing P) C) (mode : RecoveryMode) :
    C _ (factorRecovery mode) := by
  unfold AlgebraicLoop.factorRecovery
  split
  · exact hC.seq (hC.storeFactorization _) fun _ => hC.value _
  · split
    · refine hC.read (fun _ _ => rfl) fun s => ?_
      split
      · refine hC.seq (hC.notice _) fun _ => ?_
        exact hC.seq (hC.storeFactorization _) fun _ => hC.value _
      · refine hC.seq (hC.work (fun _ => ⟨rfl, rfl, rfl, rfl⟩) (fun _ _ _ => rfl) fun _ => rfl)
          fun _ => ?_
        exact hC.factorMinimumNorm
    · exact hC.factorMinimumNorm

theorem recoverSingular (hC : Closed P past (Session.footing P) C) (premarked : Bool) :
    C _ (recoverSingular premarked) := by
  refine hC.read (fun _ _ => rfl) fun s => ?_
  refine hC.seq (hC.work (fun _ => ⟨rfl, rfl, rfl, rfl⟩) (fun _ _ _ => rfl) fun _ => rfl) fun _ => ?_
  exact hC.seq (hC.notice _) fun _ => hC.factorRecovery _

theorem factorize (hC : Closed P past (Session.footing P) C) : C _ factorize := by
  refine hC.read (fun _ _ => rfl) fun s => ?_
  refine hC.seq (hC.work (fun _ => ⟨rfl, rfl, rfl, rfl⟩) (fun _ _ _ => rfl) fun _ => rfl) fun _ => ?_
  dsimp only
  split
  · exact hC.recoverSingular true
  · split
    · refine hC.seq (hC.work (fun _ => ⟨rfl, rfl, rfl, rfl⟩) (fun _ _ _ => rfl) fun _ => rfl) fun _ => ?_
      exact hC.value _
    · exact hC.recoverSingular false

/-- What follows a step that stands in for another, given the changes that it makes to the session. -/
theorem afterRecoveryStep_of (hC : Closed P past keep C)
    (hphase : C Unit (modify Session.recovering))
    (hforced : C Unit (modifyWork fun w => { w with flags.forceNewJacobian := true }))
    (hrescaling : C Unit (modifyWork fun w => { w with flags.forceRescaling := true })) :
    C _ (afterRecoveryStep P) := by
  have rest : C Unit (settleRecovery P) := by
    unfold settleRecovery
    split
    · exact hC.read (fun _ _ => rfl) fun s => hC.seq (hC.auxiliary _) fun _ => hphase
    · exact hphase
  rw [afterRecoveryStep_eq]
  refine hC.seq hforced fun _ => ?_
  dsimp only
  split
  · exact hC.seq hrescaling fun _ => rest
  · exact rest

theorem afterRecoveryStep (hC : Closed P past (Session.footing P) C) :
    C _ (afterRecoveryStep P) := by
  refine hC.afterRecoveryStep_of ?_
    (hC.work (fun _ => ⟨rfl, rfl, rfl, rfl⟩) (fun _ _ _ => rfl) fun _ => rfl)
    (hC.work (fun _ => ⟨rfl, rfl, rfl, rfl⟩) (fun _ _ _ => rfl) fun _ => rfl)
  refine hC.update (tame (fun _ => rfl) (fun _ => ⟨rfl, rfl, rfl, rfl⟩)
    (fun _ _ _ _ _ => rfl) (fun _ => rfl) (fun s => ⟨.inr ?_, id⟩) fun _ _ => .inl rfl)
  unfold Session.recovering
  cases s.work.recovery
  · trivial
  · trivial

theorem computeStep (hC : Closed P past (Session.footing P) C) (f : Vector α n)
    (stepTolerance : α) : C _ (computeStep P f stepTolerance) := by
  have step : ∀ usable : Bool, C _ (stepByFactors P f stepTolerance usable) := by
    intro usable
    refine hC.read (fun _ _ => rfl) fun s => ?_
    dsimp only
    split
    · exact hC.value _
    · split
      · exact hC.value _
      · split
        · exact hC.seq hC.afterRecoveryStep fun _ => hC.value _
        · exact hC.value _
  rw [computeStep_eq]
  refine hC.seq (hC.read (fun _ _ => rfl) fun s => ?_) step
  split
  · exact hC.value _
  · exact hC.factorize

theorem whenActive (hC : Closed P past (Session.grip P) C) (x f step : Vector α n)
    (kind : StepKind) : C _ (whenActive P x f step kind) := by
  refine hC.read (fun _ _ => rfl) fun s => ?_
  dsimp only
  split
  · refine hC.seq (hC.notice _) fun _ => ?_
    refine hC.seq (hC.limit x _) fun _ => ?_
    refine hC.seq (hC.work (fun _ => ⟨rfl, rfl, rfl, rfl⟩) (fun _ _ _ => rfl) fun _ => rfl) fun _ => ?_
    exact hC.value _
  · exact hC.value _

theorem boundedStep (hC : Closed P past (Session.grip P) C) (x f step : Vector α n)
    (kind : StepKind) : C _ (boundedStep P x f step kind) := by
  rw [boundedStep_eq]
  split
  · refine hC.seq (hC.limit x step) fun limit => ?_
    have rest : ∀ chosen, C _ (tellLimiting limit chosen) := by
      intro chosen
      unfold tellLimiting
      split
      · exact hC.seq (hC.notice _) fun _ => hC.value _
      · exact hC.seq (hC.value _) fun _ => hC.value _
    dsimp only
    split
    · refine hC.seq (hC.work (fun _ => ⟨rfl, rfl, rfl, rfl⟩) (fun _ _ _ => rfl) fun _ => rfl) fun _ => ?_
      exact hC.seq (hC.value _) rest
    · refine hC.seq (hC.notice _) fun _ => ?_
      exact hC.seq (hC.whenActive x f _ kind) rest
  · exact hC.value _

theorem searchDirection (hC : Closed P past (Session.grip P) C) (descent : Bool)
    (x f step : Vector α n) (kind : StepKind) :
    C _ (searchDirection P descent x f step kind) := by
  refine hC.read (fun _ _ => rfl) fun s => ?_
  dsimp only
  split
  · exact hC.boundedStep x f _ _
  · exact hC.boundedStep x f _ _

end Closed

end

end AlgebraicLoop
