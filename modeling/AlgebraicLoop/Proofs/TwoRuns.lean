import AlgebraicLoop.Proofs.Phases

/-!
# Two runs side by side

Two sessions that agree in all that a solve reads run alike: every part of a solve comes to the same
from either, gives the same notices and leaves sessions that agree again. The model may keep a state
of its own, as long as its answers depend on a view of it that no request changes.

* `Determined`: a model whose answers are functions of the request and of what is viewed;
* `Alike`, `Respects`: sessions that agree, and actions that treat them alike;
* `solveDamped_together`: solves by the damped method, side by side.
-/

namespace AlgebraicLoop
set_option autoImplicit false

/-! ## Determined models -/

/-- A request whose answer depends on the view alone, and that leaves the view as it is. -/
structure SeenBy {σ ν β : Type} (view : σ → ν) (request : Answer σ β) : Prop where
  answer : ∀ s t, view s = view t → (request s).1 = (request t).1
  keeps : ∀ s, view (request s).2 = view s

/-- A request to write a matrix whose answer depends on the view alone, and that leaves the view as it
is. Where it fails, what it leaves in the matrix may depend on what was there as well. -/
structure WrittenBy {α σ ν : Type} {n : Nat} (view : σ → ν) (request : σ → Writing α σ n) :
    Prop where
  answer : ∀ A B s t, view s = view t → ((request s).answer A).1 = ((request t).answer B).1
  left : ∀ A s t, view s = view t → (request s).left A = (request t).left A
  keeps : ∀ A s, view ((request s).answer A).2 = view s

theorem WrittenBy.seen {α σ ν : Type} {n : Nat} {view : σ → ν} {request : σ → Writing α σ n}
    (h : WrittenBy view request) (A : Mat α n n) : SeenBy view fun s => (request s).answer A :=
  ⟨h.answer A A, h.keeps A⟩

/-- A model whose answers are functions of the request and of a view of its state. -/
structure Determined {α σ ν : Type} {n : Nat} (model : Model α σ n) (view : σ → ν) : Prop where
  evaluate : ∀ x, SeenBy view (model.evaluate x)
  evaluateAuxiliary : ∀ x, SeenBy view (model.evaluateAuxiliary x)
  writeBack : ∀ x, SeenBy view (model.writeBack x)
  residualNominals : ∀ s t, view s = view t → model.residualNominals s = model.residualNominals t
  jacobian : ∀ jacobian, model.jacobian = some jacobian → ∀ x, WrittenBy view (jacobian x)
  directional : ∀ derivative, model.directional = some derivative → ∀ x direction,
    SeenBy view (derivative x direction)

/-! ## Sessions that agree -/

section
variable {α σ ν : Type} [Scalar α] {n : Nat}

/-- Two sessions agree in all that attempts read, and in the notices they were given since there
were `a` and `b` of them. With `bracketed`, they also agree in the bracket. -/
structure Alike (past bracketed : Bool) (view : σ → ν) (a b : Nat) (s t : Session α σ n) : Prop where
  shown : ∀ m, s.shown past m = t.shown past m
  bracket : bracketed = true → s.bracket = t.bracket
  view : view s.model = view t.model
  notices : s.notices.toList.drop a = t.notices.toList.drop b
  left : a ≤ s.notices.size
  right : b ≤ t.notices.size

variable {β γ : Type}

/-- Two runs that came to the same and left sessions that agree. -/
def Together (past bracketed : Bool) (view : σ → ν) (a b : Nat) :
    EStateM.Result (Halt α) (Session α σ n) β → EStateM.Result (Halt α) (Session α σ n) β → Prop
  | .ok v s, .ok w t => v = w ∧ Alike past bracketed view a b s t
  | .error h s, .error k t => h = k ∧ Alike past bracketed view a b s t
  | .ok _ _, .error _ _ | .error _ _, .ok _ _ => False

/-- Started in sessions that agree, the action comes to the same and leaves such sessions. -/
def Respects (past bracketed : Bool) (view : σ → ν) (a b : Nat) (act : Action α σ n β) : Prop :=
  ∀ s t, Alike past bracketed view a b s t → Together past bracketed view a b (act s) (act t)

variable {past past' bracketed bracketed' : Bool} {view : σ → ν} {a b : Nat}

/-- How two runs end that came to the same. -/
theorem Together.ends {r r' : EStateM.Result (Halt α) (Session α σ n) β}
    (h : Together past bracketed view a b r r') :
    (∃ v s t, r = .ok v s ∧ r' = .ok v t ∧ Alike past bracketed view a b s t) ∨
      ∃ halt s t, r = .error halt s ∧ r' = .error halt t ∧ Alike past bracketed view a b s t := by
  cases r with
  | ok v s =>
    cases r' with
    | ok w t =>
      obtain ⟨rfl, hst⟩ := h
      exact .inl ⟨v, s, t, rfl, rfl, hst⟩
    | error _ _ => exact h.elim
  | error k s =>
    cases r' with
    | ok _ _ => exact h.elim
    | error k' t =>
      obtain ⟨rfl, hst⟩ := h
      exact .inr ⟨k, s, t, rfl, rfl, hst⟩

theorem Together.mono {r r' : EStateM.Result (Halt α) (Session α σ n) β}
    (h : Together past bracketed view a b r r')
    (halike : ∀ s t : Session α σ n, Alike past bracketed view a b s t →
      Alike past' bracketed' view a b s t) : Together past' bracketed' view a b r r' := by
  obtain ⟨v, s, t, rfl, rfl, hst⟩ | ⟨halt, s, t, rfl, rfl, hst⟩ := h.ends
  · exact ⟨rfl, halike s t hst⟩
  · exact ⟨rfl, halike s t hst⟩

theorem Together.bind {act : Action α σ n β} {f : β → Action α σ n γ} {s t : Session α σ n}
    (h : Together past bracketed view a b (act s) (act t))
    (hf : ∀ v s' t', Alike past bracketed view a b s' t' →
      Together past' bracketed' view a b (f v s') (f v t'))
    (halt : ∀ s' t' : Session α σ n, Alike past bracketed view a b s' t' →
      Alike past' bracketed' view a b s' t') :
    Together past' bracketed' view a b ((act >>= f) s) ((act >>= f) t) := by
  obtain ⟨v, s', t', hs, ht, hst⟩ | ⟨k, s', t', hs, ht, hst⟩ := h.ends
  · rw [bind_ok hs, bind_ok ht]
    exact hf v s' t' hst
  · rw [bind_error hs, bind_error ht]
    exact ⟨rfl, halt s' t' hst⟩

theorem respects_pure (v : β) : Respects past bracketed view a b (pure v : Action α σ n β) :=
  fun _ _ h => ⟨rfl, h⟩

theorem respects_throw (halt : Halt α) :
    Respects past bracketed view a b (throw halt : Action α σ n β) := fun _ _ h => ⟨rfl, h⟩

theorem Respects.bind {act : Action α σ n β} {f : β → Action α σ n γ}
    (ha : Respects past bracketed view a b act) (hf : ∀ v, Respects past bracketed view a b (f v)) :
    Respects past bracketed view a b (act >>= f) :=
  fun s t h => Together.bind (ha s t h) (fun v s' t' h' => hf v s' t' h') fun _ _ h' => h'

/-- Reading what is shown of a session. -/
theorem respects_read {f : Session α σ n → Action α σ n β}
    (hshown : ∀ s m, f (s.shown past m) = f s) (hf : ∀ s, Respects past bracketed view a b (f s)) :
    Respects past bracketed view a b (get >>= f) := by
  intro s t h
  have hst : f s = f t := by rw [← hshown s s.model, h.shown, hshown]
  rw [get_bind_apply, get_bind_apply, hst]
  exact hf t s t h

/-- A change that is the same for sessions that agree. -/
theorem respects_modify {g : Session α σ n → Session α σ n}
    (hshown : ∀ s t, Alike past bracketed view a b s t →
      ∀ m, (g s).shown past m = (g t).shown past m)
    (hsilent : ∀ s, ((g s).model, (g s).notices, (g s).bracket) = (s.model, s.notices, s.bracket)) :
    Respects past bracketed view a b (modify g : Action α σ n Unit) := by
  have hmodel : ∀ s, (g s).model = s.model := fun s => congrArg (fun p => p.1) (hsilent s)
  have hnotices : ∀ s, (g s).notices = s.notices := fun s => congrArg (fun p => p.2.1) (hsilent s)
  have hbracket : ∀ s, (g s).bracket = s.bracket := fun s => congrArg (fun p => p.2.2) (hsilent s)
  intro s t h
  refine ⟨rfl, hshown s t h, fun hb => ?_, ?_, ?_, ?_, ?_⟩
  · rw [hbracket, hbracket]
    exact h.bracket hb
  · rw [hmodel, hmodel]
    exact h.view
  · rw [hnotices, hnotices]
    exact h.notices
  · rw [hnotices]
    exact h.left
  · rw [hnotices]
    exact h.right

theorem respects_tame {o : Options α} {g : Session α σ n → Session α σ n} {δ : Type}
    {keep : Session α σ n → δ} (hg : Tame o past keep g) :
    Respects past bracketed view a b (modify g : Action α σ n Unit) := by
  refine respects_modify (fun s t h m => ?_) fun s =>
    congrArg (fun l : Ledger α σ n => (l.model, l.notices, l.bracket)) (hg.silent s)
  rw [← hg.uniform s m, h.shown, hg.uniform]

theorem respects_notify (notice : Notice α) :
    Respects past bracketed view a b (notify notice : Action α σ n Unit) := by
  intro s t h
  refine ⟨rfl, h.shown, h.bracket, h.view, ?_, ?_, ?_⟩
  · rw [Array.toList_push, Array.toList_push, List.drop_append_of_le_length h.left,
      List.drop_append_of_le_length h.right, h.notices]
  · rw [Array.size_push]
    exact Nat.le_succ_of_le h.left
  · rw [Array.size_push]
    exact Nat.le_succ_of_le h.right

theorem respects_ask {request : Answer σ β} (h : SeenBy view request)
    (record : Except EvalFailure β → Call α n) :
    Respects past bracketed view a b (ask request record) := by
  intro s t hst
  refine ⟨h.answer _ _ hst.view, hst.shown, hst.bracket, ?_, hst.notices, hst.left, hst.right⟩
  change view (request s.model).2 = view (request t.model).2
  rw [h.keeps, h.keeps]
  exact hst.view

theorem respects_settleAnswer (kind : Request) (answer : Except EvalFailure β) :
    Respects past bracketed view a b (settleAnswer kind answer : Action α σ n (Except Mishap β)) := by
  cases answer with
  | ok v => exact respects_pure _
  | error failure =>
    cases failure with
    | recoverable reason => exact respects_pure _
    | fatal reason => exact respects_throw _

theorem respects_recordSample (P : Problem α σ n) (x f : Vector α n) :
    Respects past bracketed view a b (recordSample P x f) := by
  intro s t h
  rw [recordSample_apply, recordSample_apply]
  exact ⟨rfl, h.shown, fun hb => congrArg (noteSample P x f) (h.bracket hb), h.view, h.notices,
    h.left, h.right⟩

variable {P : Problem α σ n}

theorem respects_evaluate (hP : Determined P.model view) (x : Vector α n) :
    Respects past bracketed view a b (evaluate P x) := by
  refine Respects.bind (respects_modify (fun s t h m => h.shown m) fun _ => rfl) fun _ => ?_
  refine (respects_ask (hP.evaluate x) _).bind fun answer => ?_
  refine (respects_settleAnswer _ answer).bind fun settled => ?_
  cases settled with
  | error mishap => exact respects_pure _
  | ok f =>
    dsimp only
    split
    · exact (respects_notify _).bind fun _ => respects_pure _
    · exact (respects_recordSample P x f).bind fun _ => respects_pure _

theorem respects_updateAuxiliary (hP : Determined P.model view) (x : Vector α n) :
    Respects past bracketed view a b (updateAuxiliary P x) := by
  refine (respects_ask (hP.evaluateAuxiliary x) _).bind fun answer => ?_
  cases answer with
  | ok _ => exact respects_pure _
  | error failure =>
    cases failure with
    | recoverable reason => exact respects_notify _
    | fatal reason => exact respects_throw _

theorem respects_limitByBox (x step : Vector α n) :
    Respects past bracketed view a b (limitByBox P x step) := by
  intro s t h
  rw [limitByBox_apply, limitByBox_apply]
  have hbox : s.work.box.blank = t.work.box.blank :=
    congrArg (fun u => u.work.box) (h.shown s.model)
  have hnominal : s.nominal = t.nominal := congrArg (fun u => u.nominal) (h.shown s.model)
  refine ⟨?_, fun m => ?_, h.bracket, h.view, h.notices, h.left, h.right⟩
  · rw [hnominal, ← Box.limitStep_of_blank, hbox, Box.limitStep_of_blank]
  · have hshown := h.shown m
    simp only [Session.shown, Session.veiled, Session.outdated, Box.blank_limitStep] at hshown ⊢
    exact hshown

/-- Every part of a solve respects sessions that agree. -/
theorem closed_respects (hP : Determined P.model view) :
    Closed P past (fun _ => ()) fun _ act => Respects past bracketed view a b act where
  value v := respects_pure v
  seq ha hf := ha.bind hf
  read hshown hf := respects_read hshown hf
  residualNominals hf' hf s t h := by
    rw [get_bind_apply, get_bind_apply, hf' s t (hP.residualNominals _ _ h.view)]
    exact hf t s t h
  update hg := respects_tame hg
  notice := respects_notify
  residual := respects_evaluate hP
  written jacobian hj x A hstore s t h := by
    have hleft := (hP.jacobian jacobian hj x).left A s.model t.model h.view
    unfold overwriteJacobian
    rw [get_bind_apply, get_bind_apply, hleft]
    exact hstore _ s t h
  jacobian jacobian hj x A :=
    (respects_ask ((hP.jacobian jacobian hj x).seen A) _).bind (respects_settleAnswer _)
  directional derivative hd x direction :=
    (respects_ask (hP.directional derivative hd x direction) _).bind (respects_settleAnswer _)
  auxiliary := respects_updateAuxiliary hP
  limit := respects_limitByBox

theorem setting_respects (hP : Determined P.model view) :
    Closed P past (Session.setting P) fun _ act => Respects past bracketed view a b act :=
  (closed_respects hP).finer (fun _ => ()) fun _ => rfl

/-! ## The solve -/

/-- The session with an empty bracket, and no Jacobian known to belong to its point. -/
def Session.refreshed (s : Session α σ n) : Session α σ n :=
  { s with bracket := {}, work := { s.work with jacobianAtPoint := false } }

/-- The session without the history of its last attempt. -/
def Session.forgetful (s : Session α σ n) : Session α σ n :=
  { s with work := { s.work with history := none } }

/-- Where the past does not count, two sessions agree as if it were forgotten. -/
theorem Alike.forgetful {s t : Session α σ n} (h : Alike false true view a b s t) :
    Alike true true view a b s.forgetful t.forgetful :=
  ⟨h.shown, h.bracket, h.view, h.notices, h.left, h.right⟩

theorem Alike.weaken {s t : Session α σ n} (h : Alike true bracketed view a b s t) :
    Alike false bracketed view a b s t := by
  refine ⟨fun m => ?_, h.bracket, h.view, h.notices, h.left, h.right⟩
  change { s.shown true m with work := { (s.shown true m).work with history := none } } =
    { t.shown true m with work := { (t.shown true m).work with history := none } }
  rw [h.shown]

theorem Alike.unbracketed {s t : Session α σ n} (h : Alike past true view a b s t) :
    Alike past false view a b s t :=
  ⟨h.shown, nofun, h.view, h.notices, h.left, h.right⟩

theorem Together.weaken {r r' : EStateM.Result (Halt α) (Session α σ n) β}
    (h : Together true bracketed view a b r r') : Together false bracketed view a b r r' :=
  h.mono fun _ _ => Alike.weaken

theorem Together.unbracketed {r r' : EStateM.Result (Halt α) (Session α σ n) β}
    (h : Together past true view a b r r') : Together past false view a b r r' :=
  h.mono fun _ _ => Alike.unbracketed

theorem openSolve_refreshed {P : Problem α σ n} (haccepted : P.options.startFromAccepted = false)
    {s : Session α σ n} (hs : s.work.ready = true) :
    openSolve P s = (do
      if P.options.rescaleEachSolve || (← get).work.flags.forceRescaling then
        updateResidualScales P
      pure false : Action α σ n Bool) s.refreshed :=
  openSolve_stays hs (resumed?_of_option haccepted)

theorem respects_restartFromNominal : Respects past bracketed view a b (restartFromNominal P) := by
  refine respects_read (fun _ _ => rfl) fun s => ?_
  split
  · next x _ =>
    refine respects_modify (fun s t h m => ?_) fun _ => rfl
    change { s.shown past m with x } = { t.shown past m with x }
    rw [h.shown]
  · exact respects_throw _

theorem respects_checkStartingPoint (hP : Determined P.model view) :
    Respects past bracketed view a b (checkStartingPoint P) := by
  refine respects_read (fun _ _ => rfl) fun s => ?_
  refine (respects_evaluate hP s.x).bind fun answer => ?_
  cases answer with
  | ok _ => exact respects_pure _
  | error mishap =>
    dsimp only
    split
    · refine respects_restartFromNominal.bind fun _ => (respects_notify _).bind fun _ => ?_
      refine respects_read (fun _ _ => rfl) fun t => ?_
      refine (respects_evaluate hP t.x).bind fun answer => ?_
      cases answer with
      | ok _ => exact respects_pure _
      | error mishap => exact respects_throw _
    · exact respects_throw _

theorem respects_writeBack (hP : Determined P.model view) :
    Respects past bracketed view a b (writeBack P) := by
  refine respects_read (fun _ _ => rfl) fun s => ?_
  refine (respects_ask (hP.writeBack s.x) _).bind fun answer => ?_
  cases answer with
  | ok _ => exact respects_pure _
  | error failure =>
    cases failure with
    | recoverable reason => exact respects_throw _
    | fatal reason => exact respects_throw _

theorem respects_closeSolve (hP : Determined P.model view) (standing : Standing α) :
    Respects past bracketed view a b (closeSolve P standing) := by
  refine (respects_writeBack hP).bind fun _ => ?_
  split
  · refine Respects.bind (respects_modify (fun s t h m => h.shown m) fun _ => rfl) fun _ => ?_
    exact respects_read (fun _ _ => rfl) fun s => respects_pure _
  · unfold failSolve
    refine Respects.bind (respects_modify (fun s t h m => ?_) fun _ => rfl) fun _ => ?_
    · change { s.shown past m with work := { (s.shown past m).work with
          flags.forceNewJacobian := true } } =
        { t.shown past m with work := { (t.shown past m).work with
          flags.forceNewJacobian := true } }
      rw [h.shown]
    · exact (respects_notify _).bind fun _ => respects_throw _

theorem respects_bracketRead :
    BracketRead fun _ (act : Action α σ n _) => Respects past true view a b act := by
  intro β f hf' hf s t h
  rw [get_bind_apply, get_bind_apply, hf' s t (h.bracket rfl)]
  exact hf t s t h

/-- The attempts of a solve by the damped method. -/
theorem respects_attempts (hP : Determined P.model view) (first : Bool) :
    Respects true true view a b (afterOpening P first) := by
  have hC : Closed P true (Session.setting P) fun _ act => Respects true true view a b act :=
    setting_respects hP
  have hsearch := hC.lineSearch (respects_throw _)
  refine Respects.bind (hC.firstAttempt respects_bracketRead hsearch) fun standing => ?_
  refine Respects.bind (hC.stage.tryDescent hsearch standing) fun standing => ?_
  refine Respects.bind (hC.tryRescaled hsearch first standing) fun standing => ?_
  refine Respects.bind (hC.stage.tryNominal hsearch respects_restartFromNominal standing)
    fun standing => ?_
  exact respects_closeSolve hP standing

/-- Two solves of blocks that have been set up run side by side. -/
theorem solveDamped_together (hP : Determined P.model view)
    (haccepted : P.options.startFromAccepted = false) {s t : Session α σ n}
    (hs : s.work.ready = true) (ht : t.work.ready = true)
    (h : Alike false true view a b s.refreshed t.refreshed) :
    Together false true view a b (solveDamped P s) (solveDamped P t) := by
  have hopen : Together false true view a b (openSolve P s) (openSolve P t) := by
    rw [openSolve_refreshed haccepted hs, openSolve_refreshed haccepted ht]
    refine respects_read (fun _ _ => rfl) (fun u => ?_) s.refreshed t.refreshed h
    split
    · exact Respects.bind (setting_respects hP).stage.spot.updateResidualScales fun _ =>
        respects_pure _
    · exact respects_pure _
  refine Together.bind hopen (fun first s' t' hst => ?_) fun _ _ h => h
  exact Together.weaken (respects_attempts hP first s'.forgetful t'.forgetful hst.forgetful)

/-- A block that has started and been set up, without an event since its last solve. -/
structure Session.Rested (s : Session α σ n) : Prop where
  started : s.phase ≠ .untouched
  ready : s.work.ready = true
  atEvent : s.atEvent = false

theorem prelude_eventless (P : Problem α σ n) {s : Session α σ n} (hstarted : s.phase ≠ .untouched)
    (hevent : s.atEvent = false) : prelude P s = .ok () (s.begun P) := by
  rw [prelude_started P s hstarted, if_neg]
  · rfl
  · rw [hevent]
    exact fun h => Bool.false_ne_true h.1

theorem prelude_rested (P : Problem α σ n) {s : Session α σ n} (hs : s.Rested) :
    prelude P s = .ok () (s.begun P) :=
  prelude_eventless P hs.started hs.atEvent

theorem Alike.begun (P : Problem α σ n) {s t : Session α σ n}
    (h : Alike false true view a b s.refreshed t.refreshed) :
    Alike false true view a b (s.begun P).refreshed (t.begun P).refreshed := by
  refine ⟨fun m => ?_, fun _ => rfl, h.view, h.notices, h.left, h.right⟩
  have hshown := h.shown m
  have hpoint : startingPoint P s = startingPoint P t := by
    have hx : s.x = t.x := congrArg (fun u => u.x) hshown
    have hlower : s.lower = t.lower := congrArg (fun u => u.lower) hshown
    have hupper : s.upper = t.upper := congrArg (fun u => u.upper) hshown
    unfold startingPoint
    rw [hx, hlower, hupper]
  change { s.refreshed.shown false m with x := startingPoint P s } =
    { t.refreshed.shown false m with x := startingPoint P t }
  rw [hshown, hpoint]

/-- The marks that are taken back after a solve are not read by one. -/
theorem Together.unmarked {act : Action α σ n β} {s t : Session α σ n}
    (h : Together past bracketed view a b (act s) (act t)) :
    Together past bracketed view a b (thenAlways act Session.unmarked s)
      (thenAlways act Session.unmarked t) := by
  obtain ⟨v, s', t', hs, ht, hst⟩ | ⟨k, s', t', hs, ht, hst⟩ := h.ends
  · rw [thenAlways_ok hs, thenAlways_ok ht]
    exact ⟨rfl, hst.shown, hst.bracket, hst.view, hst.notices, hst.left, hst.right⟩
  · rw [thenAlways_error hs, thenAlways_error ht]
    exact ⟨rfl, hst.shown, hst.bracket, hst.view, hst.notices, hst.left, hst.right⟩

/-- Solves of two blocks at rest that agree run side by side. -/
theorem solveAction_together (hP : Determined P.model view) (hmethod : P.options.method = .damped)
    (haccepted : P.options.startFromAccepted = false) {s t : Session α σ n} (hs : s.Rested)
    (ht : t.Rested) (h : Alike false true view a b s.refreshed t.refreshed) :
    Together false true view a b (solveAction P s) (solveAction P t) := by
  rw [solveAction_eq, bind_ok (prelude_rested P hs), bind_ok (prelude_rested P ht)]
  have hsolve := solveDamped_together hP haccepted (s := s.begun P) (t := t.begun P) hs.ready
    ht.ready (h.begun P)
  rw [solveByMethod_damped hmethod]
  exact hsolve.unmarked

end

end AlgebraicLoop
